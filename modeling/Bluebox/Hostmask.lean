/-
  Bluebox.Hostmask

  `parse_netmask` of `libratboxcore/hostmask.c`, and the lookups of
  `libratbox/src/patricia.c` by socket address.  What `rb_inet_pton_sock` makes of
  a text is a parameter.
-/
import Bluebox.Lib.CString
import Bluebox.Patricia.Search

namespace Bluebox

open Bluebox.Lib Bluebox.Patricia

/-- A socket address: its family and its bits. -/
structure IpAddr where
  v6 : Bool
  bits : Nat → Bool

/-- A mask that is an address or a CIDR block.  `v6` is whether it was written as an
    IPv6 one. -/
structure Netmask where
  v6 : Bool
  addr : IpAddr
  bits : Int
  bits_le : bits ≤ 128

/-- The address and the length of the mask, which is at most `most`. -/
def splitBits (most : Int) (text : Bytes) : Bytes × Int :=
  match strchr 47 text with
  | some (ip, len) => (ip, min (atoi len) most)
  | none => (text, most)

theorem splitBits_le (most : Int) (text : Bytes) : (splitBits most text).2 ≤ most := by
  unfold splitBits
  split
  · exact Int.min_le_right _ _
  · exact Int.le_refl _

/-- `parse_netmask`; no result is `HM_HOST`. -/
def parseNetmask (pton : Bytes → Option IpAddr) (text : Bytes) : Option Netmask :=
  if text.any (fun b => b == 42 || b == 63) then none
  else if text.contains 58 then
    (pton (splitBits 128 text).1).map fun addr =>
      ⟨true, addr, (splitBits 128 text).2, splitBits_le 128 text⟩
  else if text.contains 46 then
    (pton (splitBits 32 text).1).map fun addr =>
      ⟨false, addr, (splitBits 32 text).2, Int.le_trans (splitBits_le 32 text) (by decide)⟩
  else none

/-- `New_Prefix`: a negative length stands for the longest. -/
def newPrefix (addr : IpAddr) (bitlen : Int) : Pfx :=
  ⟨if 0 ≤ bitlen then bitlen.toNat else 128, addr.bits⟩

theorem newPrefix_bitlen_le (addr : IpAddr) {bitlen : Int} (h : bitlen ≤ 128) :
    (newPrefix addr bitlen).bitlen ≤ 128 := by
  unfold newPrefix
  dsimp only
  split
  · omega
  · exact Nat.le_refl _

/-- The number of bits of an address of this family. -/
def IpAddr.width (addr : IpAddr) : Nat := if addr.v6 then 128 else 32

/-- `rb_match_ip`. -/
def rbMatchIp {β : Type} (t : Patricia.Tree β) (addr : IpAddr) : Option (Node β) :=
  searchBest t ⟨addr.width, addr.bits⟩

/-- `rb_match_ip_exact`; the length is unsigned there. -/
def rbMatchIpExact {β : Type} (t : Patricia.Tree β) (addr : IpAddr) (len : Int) : Option (Node β) :=
  searchExact ⟨if 0 ≤ len ∧ len ≤ addr.width then len.toNat else addr.width, addr.bits⟩ t

end Bluebox
