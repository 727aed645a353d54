/-
  Bluebox.Atable

  The table of address masks of `libratboxcore/hostmask.c`, where K-lines, G-lines
  and authorisation blocks are kept, and `match_esc` of `libratboxcore/match.c`.

  A record goes to the front of the chain that its mask hashes to.  A lookup walks
  the chains that masks of the address and of the name can be in, and takes the
  first record that matches.
-/
import Mathlib.Logic.Function.Basic
import Bluebox.Hostmask
import Bluebox.Match

namespace Bluebox

open Bluebox.Lib

-- ============================================================================
-- Addresses
-- ============================================================================

/-- A byte of an address. -/
def IpAddr.byte (addr : IpAddr) (n : Nat) : Nat :=
  (List.range 8).foldl (fun v i => 2 * v + if addr.bits (8 * n + i) then 1 else 0) 0

/-- `comp_with_mask`: the addresses agree in their first bits.  A negative number of
    bits is a huge unsigned one. -/
def IpAddr.compWithMask (addr dest : IpAddr) (bits : Int) : Bool :=
  decide (0 ≤ bits) && (List.range bits.toNat).all fun i => addr.bits i == dest.bits i

/-- `ATABLE_SIZE`. -/
def atableSize : Nat := 2 ^ 12

/-- `hash_ipv4`. -/
def hashIpv4 (addr : IpAddr) (bits : Nat) : Nat :=
  if bits = 0 then 0
  else
    let av := (List.range 32).foldl
      (fun v i => 2 * v + if addr.bits i && decide (i < bits) then 1 else 0) 0
    (av ^^^ (av >>> 12) ^^^ (av >>> 24)) % atableSize

/-- The loop of `hash_ipv6`, from byte `n` on. -/
def hashIpv6Loop (addr : IpAddr) : Nat → Nat → Nat → Nat → Nat
  | 0, _, _, v => v % atableSize
  | fuel + 1, n, bits, v =>
    if 8 ≤ bits then hashIpv6Loop addr fuel (n + 1) (bits - 8) (v ^^^ addr.byte n)
    else (v ^^^ (addr.byte n - addr.byte n % 2 ^ (8 - bits))) % atableSize

/-- `hash_ipv6`. -/
def hashIpv6 (addr : IpAddr) (bits : Nat) : Nat := hashIpv6Loop addr 16 0 bits 0

-- ============================================================================
-- Names
-- ============================================================================

/-- `hash_text`. -/
def hashText (start : Bytes) : Nat :=
  (start.foldl (fun (h : UInt32) c => (h <<< 4) - (h + (toLower c).toUInt32)) 0).toNat % atableSize

/-- `get_mask_hash`: the part after the first dot behind the last wildcard. -/
def getMaskHash (text : Bytes) : Nat :=
  let tail := text.rtakeWhile fun b => !(b == 42 || b == 63)
  if tail = text then hashText text
  else hashText ((tail.dropWhile (· != 46)).tail)

/-- The places in a name where a lookup hashes: its start and behind each dot. -/
def afterDots : Bytes → List Bytes
  | [] => []
  | c :: rest => if c = 46 then rest :: afterDots rest else afterDots rest

-- ============================================================================
-- The table
-- ============================================================================

/-- The type of a record. -/
inductive RecType
  | kill
  | gline
  | client
  | exemptDline
deriving DecidableEq, Repr

/-- `struct AddressRec`.  `mask` is the block of an address mask, and none for a
    mask of host names. -/
structure AddressRec (α : Type) where
  type : RecType
  skipUser : Bool
  mask : Option Netmask
  hostname : Bytes
  username : Bytes
  conf : α

/-- `atable`. -/
abbrev Atable (α : Type) := Nat → List (AddressRec α)

variable {α : Type}

/-- The comparison of the type and the user name. -/
def AddressRec.fits (r : AddressRec α) (type : RecType) (username : Bytes) : Bool :=
  decide (type = r.type) && (r.skipUser || matchMask r.username username)

/-- A record that covers an address of a family. -/
def AddressRec.covers (r : AddressRec α) (v6 : Bool) (addr : IpAddr) : Bool :=
  r.mask.any fun mask => mask.v6 == v6 && addr.compWithMask mask.addr mask.bits

/-- A record that covers a host name. -/
def AddressRec.names (r : AddressRec α) (name : Bytes) : Bool :=
  r.mask.isNone && matchMask r.hostname name

/-- The part of `find_conf_by_address` for an address. -/
def findByAddr (t : Atable α) (v6 : Bool) (addr : IpAddr) (type : RecType) (username : Bytes) :
    Option (AddressRec α) :=
  let chains := if v6 then [128, 112, 96, 80, 64, 48, 32, 16, 0].map (hashIpv6 addr)
    else [32, 24, 16, 8, 0].map (hashIpv4 addr)
  chains.findSome? fun hv => (t hv).find? fun r => r.covers v6 addr && r.fits type username

/-- The part of `find_conf_by_address` for a host name. -/
def findByName (t : Atable α) (name : Bytes) (sockhost : Option Bytes) (type : RecType)
    (username : Bytes) : Option (AddressRec α) :=
  let found := (name :: afterDots name).findSome? fun p =>
    (t (hashText p)).find? fun r => r.names name && r.fits type username
  match found with
  | some r => some r
  | none => (t 0).find? fun r => (r.names name || sockhost.any r.names) && r.fits type username

/-- `find_conf_by_address`; the address comes with the family that is asked for. -/
def findConfByAddress (t : Atable α) (name : Bytes) (sockhost : Option Bytes)
    (addr : Option (Bool × IpAddr)) (type : RecType) (username : Bytes) : Option (AddressRec α) :=
  match addr.bind fun a => findByAddr t a.1 a.2 type username with
  | some r => some r
  | none => findByName t name sockhost type username

/-- The record that `add_conf_by_address` makes. -/
def mkAddressRec (pton : Bytes → Option IpAddr) (address : Bytes) (type : RecType)
    (username : Bytes) (conf : α) : AddressRec α where
  type := type
  skipUser := username == [] || username == [42]
  mask := parseNetmask pton address
  hostname := address
  username := username
  conf := conf

/-- The chain of a record. -/
def AddressRec.chain (r : AddressRec α) : Nat :=
  match r.mask with
  | some mask =>
    if mask.v6 then hashIpv6 mask.addr (mask.bits - Int.tmod mask.bits 16).toNat
    else hashIpv4 mask.addr (mask.bits - Int.tmod mask.bits 8).toNat
  | none => getMaskHash r.hostname

/-- `add_conf_by_address`. -/
def addConfByAddress (pton : Bytes → Option IpAddr) (t : Atable α) (address : Bytes)
    (type : RecType) (username : Bytes) (conf : α) : Atable α :=
  let r := mkAddressRec pton address type username conf
  Function.update t r.chain (r :: t r.chain)

/-- `clear_out_address_conf_bans`; `temporary` is the flag of a `ConfItem`. -/
def clearOutAddressConfBans (temporary : α → Bool) (t : Atable α) : Atable α := fun hv =>
  (t hv).filter fun r => temporary r.conf || r.type == .client || r.type == .exemptDline

/-- A record is in the table. -/
def Atable.Has (t : Atable α) (r : AddressRec α) : Prop := ∃ hv, r ∈ t hv

-- ============================================================================
-- match_esc
-- ============================================================================

/-- `IsLetter`. -/
def isLetter (b : UInt8) : Bool := (65 ≤ b && b ≤ 90) || (97 ≤ b && b ≤ 122)

/-- The pointers of `match_esc` and its `quote`. -/
structure EscCursor where
  m : Bytes
  n : Bytes
  ma : Bytes
  na : Bytes
  wild : Bool
  quote : Nat

/-- The comparison of two characters. -/
def escMatch1 (quoted : Bool) (a b : UInt8) : Bool :=
  if quoted then (if a = 115 then b == 32 else toLower a == toLower b)
  else if a = 63 then true
  else if a = 64 then isLetter b
  else if a = 35 then isDigit b
  else toLower a == toLower b

/-- The end of a round: step on, or back to the star. -/
def EscCursor.advance (c : EscCursor) : Bool ⊕ EscCursor :=
  if escMatch1 (c.quote != 0) (c.m.headD 0) (c.n.headD 0) then
    .inr { c with m := c.m.tail, n := c.n.tail }
  else if !c.wild then .inl false
  else .inr { c with m := c.ma, n := c.na.tail, na := c.na.tail }

/-- A round behind the treatment of escapes and stars. -/
def EscCursor.compare (mask : Bytes) (c : EscCursor) : Bool ⊕ EscCursor :=
  if c.m = [] then
    if c.n = [] then .inl true
    else if c.quote ≠ 0 then .inl false
    else if endsInStar mask then .inl true
    else if !c.wild then .inl false
    else ({ c with m := c.ma, n := c.na.tail, na := c.na.tail } : EscCursor).advance
  else if c.n = [] then
    if c.quote ≠ 0 then .inl false else .inl (c.m.dropWhile (· == star)).isEmpty
  else c.advance

/-- `quote` at the start of a round. -/
def nextQuote (quote : Nat) : Nat := if quote = 0 then 0 else if quote = 2 then 0 else quote + 1

/-- One round: a verdict, or the next cursor. -/
def EscCursor.round (mask : Bytes) (c : EscCursor) : Bool ⊕ EscCursor :=
  let quote := nextQuote c.quote
  if c.m.head? = some 92 ∧ quote = 0 then .inr { c with m := c.m.tail, quote := 1 }
  else if quote = 0 ∧ c.m.head? = some star then
    let m := c.m.dropWhile (· == star)
    if m.head? = some 92 then
      if m.tail = [] then .inl false
      else .inr { c with m := m.tail, ma := m, na := c.n, wild := true, quote := 1 }
    else ({ c with m := m, ma := m, na := c.n, wild := true, quote := 0 } : EscCursor).compare mask
  else ({ c with quote := quote } : EscCursor).compare mask

/-- The rounds that are left. -/
def matchEscLoop (mask : Bytes) : Nat → EscCursor → Bool
  | 0, _ => false
  | calls + 1, c =>
    match c.round mask with
    | .inl verdict => verdict
    | .inr c => matchEscLoop mask calls c

/-- `match_esc`. -/
def matchEsc (mask name : Bytes) : Bool :=
  if mask = [star] then true
  else matchEscLoop mask matchMaxCalls ⟨mask, name, mask, name, false, 0⟩

end Bluebox
