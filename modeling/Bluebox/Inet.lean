/-
  Bluebox.Inet

  Addresses as text: `inet_pton4`, `inet_pton6`, `rb_inet_pton` and `rb_inet_pton_sock`
  of `libratbox/src/commio.c`.

  A dotted quad reads leading zeros as nothing.  The reader of IPv6 addresses passes over
  characters that it does not know.
-/
import Bluebox.Hostmask
import Bluebox.Match

namespace Bluebox

open Bluebox.Lib

-- ============================================================================
-- inet_pton4
-- ============================================================================

/-- The loop of `inet_pton4`: `new` is the octet that `tp` points at, and `tmp` has those
    before it, the last one first. -/
def inetPton4Loop : Bytes → Nat → List Nat → Bool → Nat → Option (List Nat)
  | [], cur, tmp, _, octets => if octets < 4 then none else some (cur :: tmp).reverse
  | ch :: src, cur, tmp, sawDigit, octets =>
    if isDigit ch then
      let new := cur * 10 + (ch.toNat - 48)
      if new > 255 then none
      else if sawDigit then inetPton4Loop src new tmp true octets
      else if octets + 1 > 4 then none
      else inetPton4Loop src new tmp true (octets + 1)
    else if ch = 46 ∧ sawDigit = true then
      if octets = 4 then none else inetPton4Loop src 0 (cur :: tmp) false octets
    else none

/-- `inet_pton4`: the four octets. -/
def inetPton4 (src : Bytes) : Option (List Nat) := inetPton4Loop src 0 [] false 0

-- ============================================================================
-- inet_pton6
-- ============================================================================

/-- The place of a character in `xdigits`. -/
def xdigit (ch : UInt8) : Option Nat :=
  if isDigit ch then some (ch.toNat - 48) else if 97 ≤ ch ∧ ch ≤ 102 then some (ch.toNat - 87) else none

/-- What `inet_pton6` keeps: the bytes up to `tp`, the place of `::`, and the number that
    is being read. -/
structure Pton6 where
  tmp : List Nat
  colonp : Option Nat
  sawXdigit : Bool
  val : Nat

/-- The two bytes of a number. -/
def Pton6.put (s : Pton6) : List Nat := s.tmp ++ [s.val / 256, s.val % 256]

/-- The loop of `inet_pton6`. -/
def inetPton6Loop : Bytes → Bytes → Pton6 → Option Pton6
  | [], _, s => some s
  | ch :: src, curtok, s =>
    match xdigit (toLower ch) with
    | some d =>
      if s.val * 16 + d > 0xffff then none
      else inetPton6Loop src curtok { s with val := s.val * 16 + d, sawXdigit := true }
    | none =>
      if ch = 58 then
        if s.sawXdigit = false then
          if s.colonp.isSome then none
          else inetPton6Loop src src { s with colonp := some s.tmp.length }
        else if src = [] then none
        else if s.tmp.length + 2 > 16 then none
        else inetPton6Loop src src { s with tmp := s.put, sawXdigit := false, val := 0 }
      else if src ≠ [] ∧ ch = 46 then
        if s.tmp.length + 4 ≤ 16 then
          (inetPton4 curtok).map fun octets => { s with tmp := s.tmp ++ octets, sawXdigit := false }
        else none
      else inetPton6Loop src curtok s

/-- What `inet_pton6` does behind its loop. -/
def Pton6.finish (s : Pton6) : Option (List Nat) :=
  if s.sawXdigit = true ∧ s.tmp.length + 2 > 16 then none
  else
    let tmp := if s.sawXdigit then s.put else s.tmp
    match s.colonp with
    | some colonp =>
      if tmp.length = 16 then none
      else some (tmp.take colonp ++ List.replicate (16 - tmp.length) 0 ++ tmp.drop colonp)
    | none => if tmp.length = 16 then some tmp else none

/-- `inet_pton6`: the sixteen bytes. -/
def inetPton6 (src : Bytes) : Option (List Nat) :=
  match src with
  | 58 :: 58 :: rest => (inetPton6Loop (58 :: rest) (58 :: rest) ⟨[], none, false, 0⟩).bind Pton6.finish
  | 58 :: _ => none
  | _ => (inetPton6Loop src src ⟨[], none, false, 0⟩).bind Pton6.finish

-- ============================================================================
-- rb_inet_pton
-- ============================================================================

/-- `rb_inet_pton`: the bytes it writes, if it is given an address. -/
def rbInetPton (v6 : Bool) (src : Bytes) : Option (List Nat) :=
  if v6 then
    match inetPton4 src with
    | some _ => inetPton6 ([58, 58, 102, 102, 102, 102, 58] ++ src)
    | none => inetPton6 src
  else inetPton4 src

-- ============================================================================
-- rb_inet_pton_sock
-- ============================================================================

/-- The address with these bytes. -/
def ipOfBytes (v6 : Bool) (bytes : List Nat) : IpAddr :=
  ⟨v6, fun i => (bytes.getD (i / 8) 0).testBit (7 - i % 8)⟩

/-- `rb_inet_pton_sock`. -/
def rbInetPtonSock (src : Bytes) : Option IpAddr :=
  match inetPton4 src with
  | some octets => some (ipOfBytes false octets)
  | none => (inetPton6 src).map (ipOfBytes true)

-- ============================================================================
-- Texts without a colon
-- ============================================================================

variable {src curtok : Bytes} {s s' : Pton6} {cur octets : Nat} {tmp l : List Nat} {sawDigit : Bool}

/-- The count of octets is that of the places of `tmp` in use, and a dot comes only before
    the fourth. -/
def Counted (tmp : List Nat) (sawDigit : Bool) (octets : Nat) : Prop :=
  octets = tmp.length + sawDigit.toNat ∧ tmp.length < 4

theorem inetPton4Loop_length (hcount : Counted tmp sawDigit octets)
    (h : inetPton4Loop src cur tmp sawDigit octets = some l) : l.length = 4 := by
  induction src generalizing cur tmp sawDigit octets with
  | nil =>
    unfold inetPton4Loop at h
    obtain ⟨hoctets, hlen⟩ := hcount
    by_cases hfew : octets < 4
    · rw [if_pos hfew] at h
      cases h
    · rw [if_neg hfew] at h
      obtain rfl := Option.some.inj h
      have hsaw := Bool.toNat_le sawDigit
      rw [List.length_reverse, List.length_cons]
      omega
  | cons ch src ih =>
    obtain ⟨hoctets, hlen⟩ := hcount
    unfold inetPton4Loop at h
    by_cases hdigit : isDigit ch = true
    · rw [if_pos hdigit] at h
      dsimp only at h
      by_cases hbig : cur * 10 + (ch.toNat - 48) > 255
      · rw [if_pos hbig] at h
        cases h
      · rw [if_neg hbig] at h
        cases sawDigit with
        | true =>
          rw [if_pos rfl] at h
          exact ih ⟨hoctets, hlen⟩ h
        | false =>
          rw [if_neg Bool.false_ne_true] at h
          rw [Bool.toNat_false] at hoctets
          rw [if_neg (by omega)] at h
          exact ih ⟨by rw [Bool.toNat_true]; omega, hlen⟩ h
    · rw [if_neg hdigit] at h
      by_cases hdot : ch = 46 ∧ sawDigit = true
      · rw [if_pos hdot] at h
        rw [hdot.2, Bool.toNat_true] at hoctets
        by_cases hfour : octets = 4
        · rw [if_pos hfour] at h
          cases h
        · rw [if_neg hfour] at h
          refine ih ⟨?_, ?_⟩ h
          · rw [Bool.toNat_false, List.length_cons]
            omega
          · rw [List.length_cons]
            omega
      · rw [if_neg hdot] at h
        cases h

theorem inetPton4_length (h : inetPton4 src = some l) : l.length = 4 :=
  inetPton4Loop_length ⟨rfl, by decide⟩ h

/-- Without a colon only the bytes of a dotted quad are written. -/
theorem inetPton6Loop_no_colon (hcolon : (58 : UInt8) ∉ src) (hs : s.tmp = [] ∧ s.colonp = none)
    (h : inetPton6Loop src curtok s = some s') :
    s'.colonp = none ∧ (s'.tmp = [] ∨ s'.tmp.length = 4 ∧ s'.sawXdigit = false) := by
  induction src generalizing s with
  | nil =>
    obtain rfl := Option.some.inj h
    exact ⟨hs.2, Or.inl hs.1⟩
  | cons ch src ih =>
    rw [List.mem_cons, not_or] at hcolon
    unfold inetPton6Loop at h
    cases hdigit : xdigit (toLower ch) with
    | some d =>
      rw [hdigit] at h
      dsimp only at h
      by_cases hbig : s.val * 16 + d > 0xffff
      · rw [if_pos hbig] at h
        cases h
      · rw [if_neg hbig] at h
        exact ih (s := { s with val := s.val * 16 + d, sawXdigit := true }) hcolon.2 hs h
    | none =>
      rw [hdigit] at h
      dsimp only at h
      rw [if_neg (fun hch => hcolon.1 hch.symm)] at h
      by_cases hdot : src ≠ [] ∧ ch = 46
      · rw [if_pos hdot] at h
        by_cases hroom : s.tmp.length + 4 ≤ 16
        · rw [if_pos hroom] at h
          obtain ⟨octets, hoctets, rfl⟩ := Option.map_eq_some_iff.mp h
          refine ⟨hs.2, Or.inr ⟨?_, rfl⟩⟩
          show (s.tmp ++ octets).length = 4
          rw [hs.1, List.nil_append, inetPton4_length hoctets]
        · rw [if_neg hroom] at h
          cases h
      · rw [if_neg hdot] at h
        exact ih hcolon.2 hs h

/-- A text without a colon is no IPv6 address. -/
theorem inetPton6_no_colon (hcolon : (58 : UInt8) ∉ src) : inetPton6 src = none := by
  have hstart : inetPton6 src = (inetPton6Loop src src ⟨[], none, false, 0⟩).bind Pton6.finish := by
    unfold inetPton6
    split
    · exact absurd List.mem_cons_self hcolon
    · exact absurd List.mem_cons_self hcolon
    · rfl
  rw [hstart, Option.bind_eq_none_iff]
  intro s hs
  obtain ⟨hcolonp, htmp⟩ := inetPton6Loop_no_colon hcolon ⟨rfl, rfl⟩ hs
  unfold Pton6.finish Pton6.put
  rw [hcolonp]
  obtain hnil | ⟨hfour, hsaw⟩ := htmp
  · rw [hnil]
    cases hsaw : s.sawXdigit with
    | false => rfl
    | true => rfl
  · rw [hsaw, if_neg (fun h => Bool.false_ne_true h.1), if_neg Bool.false_ne_true]
    exact if_neg (by omega)

/-- A text without a colon is read as a dotted quad. -/
theorem rbInetPtonSock_no_colon (hcolon : (58 : UInt8) ∉ src) :
    rbInetPtonSock src = (inetPton4 src).map (ipOfBytes false) := by
  unfold rbInetPtonSock
  rw [inetPton6_no_colon hcolon]
  cases inetPton4 src with
  | none => rfl
  | some octets => rfl

end Bluebox
