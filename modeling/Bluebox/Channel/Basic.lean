/-
  Bluebox.Channel.Basic

  Channels, their members and their lists (`include/channel.h`), and the
  clients as the channel code sees them.

  Clients and channels are named by their addresses.  What no modelled
  function reads (topics, knock and flood counters, invitations) is left out.
-/
import Mathlib.Logic.Function.Basic
import Mathlib.Data.List.Basic
import Bluebox.Match
import Bluebox.Sizes

namespace Bluebox.Chan

open Bluebox.Lib

-- ============================================================================
-- Sizes
-- ============================================================================

/-- `CHANNELLEN`. -/
def channelLen : Nat := 200

/-- `BANLEN`. -/
def banLen : Nat := nickLen + userLen + hostLen + 6

/-- `KEYLEN`. -/
def keyLen : Nat := 24

/-- `MODEBUFLEN`. -/
def modeBufLen : Nat := 200

/-- `MAXMODEPARAMS`. -/
def maxModeParams : Nat := 4

-- ============================================================================
-- Flags
-- ============================================================================

/-- Channel status flags, `CHFL_`. -/
def chflChanop : UInt8 := 0x01
def chflHalfop : UInt8 := 0x02
def chflVoice : UInt8 := 0x04
def chflDeopped : UInt8 := 0x08
def chflBanned : UInt8 := 0x10

/-- Channel modes, `MODE_`. -/
def modePrivate : UInt32 := 0x001
def modeSecret : UInt32 := 0x002
def modeModerated : UInt32 := 0x004
def modeTopiclimit : UInt32 := 0x008
def modeInviteonly : UInt32 := 0x010
def modeNoprivmsgs : UInt32 := 0x020
def modeRegonly : UInt32 := 0x040
def modeSslonly : UInt32 := 0x080
def modeSpamplease : UInt32 := 0x100

-- ============================================================================
-- Data
-- ============================================================================

/-- `struct Mode`. -/
structure Mode where
  mode : UInt32
  limit : Int
  key : Bytes
deriving DecidableEq, Repr

/-- No modes. -/
def Mode.none : Mode := ⟨0, 0, []⟩

/-- `struct membership`. -/
structure Membership where
  clientP : Nat
  flags : UInt8
  banSerial : UInt32
deriving DecidableEq, Repr

/-- `struct Ban`. -/
structure Ban where
  banstr : Bytes
  who : Bytes
  time : Int
deriving DecidableEq, Repr

/-- What can happen to the ban and exception lists.  A reset says whether
    there was anything to remove. -/
inductive ListEvent
  | added
  | removed
  | reset (any : Bool)
deriving DecidableEq, Repr

/-- `struct Channel`.  `history` is a ghost: it records what happened to the ban
    and exception lists, newest first, and no function reads it. -/
structure Channel where
  chname : Bytes
  mode : Mode
  members : List Membership
  banlist : List Ban
  exceptlist : List Ban
  invexlist : List Ban
  banSerial : UInt32
  channelts : Int
  history : List ListEvent
deriving DecidableEq, Repr

/-- `allocate_channel`, with the time stamp `get_or_create_channel` gives it. -/
def allocateChannel (chname : Bytes) (now : Int) : Channel :=
  ⟨strlcpy chname channelLen, Mode.none, [], [], [], [], 0, now, []⟩

/-- The fields of `struct Client` that the channel code reads.  `link` is the
    connection the client is behind (`from`). -/
structure Client where
  name : Bytes
  username : Bytes
  host : Bytes
  virthost : Bytes
  sockhost : Bytes
  id : Bytes
  link : Nat
  suser : Bytes
  isServer : Bool
  myConnect : Bool
  cloaked : Bool
  service : Bool
  oper : Bool
  exemptResv : Bool
  ssl : Bool
deriving DecidableEq, Repr

/-- The settings of `ConfigChannel` the channel code reads, which channel names
    are reserved (`hash_find_resv`), and the bits that `ipaddr` and `maskaddr` (for
    `true`) have by chance in a call of `match_cidr` with two texts. -/
structure Config where
  maxBans : Nat
  useExcept : Bool
  useInvex : Bool
  useSslonly : Bool
  quietOnBan : Bool
  resv : Bytes → Bool
  storage : Bytes → Bytes → Bool → Nat → Bool

/-- `IsClient`: every client that is no server is a user here. -/
def Client.isClient (c : Client) : Bool := !c.isServer

/-- `MyClient`. -/
def Client.myClient (c : Client) : Bool := c.myConnect && c.isClient

/-- `is_chanop`. -/
def Membership.isChanop (m : Membership) : Bool := m.flags &&& chflChanop != 0

/-- `is_halfop`. -/
def Membership.isHalfop (m : Membership) : Bool := m.flags &&& chflHalfop != 0

/-- `is_voiced`. -/
def Membership.isVoiced (m : Membership) : Bool := m.flags &&& chflVoice != 0

/-- `is_deop`. -/
def Membership.isDeop (m : Membership) : Bool := m.flags &&& chflDeopped != 0

/-- `is_chanop_voiced`. -/
def Membership.isChanopVoiced (m : Membership) : Bool :=
  m.flags &&& (chflChanop ||| chflHalfop ||| chflVoice) != 0

/-- `can_send_banned`. -/
def Membership.canSendBanned (m : Membership) : Bool := m.flags &&& chflBanned != 0

/-- `find_channel_membership`. -/
def Channel.findMembership (ch : Channel) (c : Nat) : Option Membership :=
  ch.members.find? (·.clientP == c)

/-- `IsMember`. -/
def Channel.isMember (ch : Channel) (c : Nat) : Bool := (ch.findMembership c).isSome

/-- `add_user_to_channel`: a zeroed membership with the flags, at the head. -/
def addUserToChannel (ch : Channel) (c : Nat) (flags : UInt8) : Channel :=
  { ch with members := ⟨c, flags, 0⟩ :: ch.members }

/-- Write to the membership of a client. -/
def Channel.modifyMember (ch : Channel) (c : Nat) (f : Membership → Membership) : Channel :=
  { ch with members := ch.members.map fun m => if m.clientP = c then f m else m }

-- ============================================================================
-- The three lists
-- ============================================================================

/-- `CHFL_BAN`, `CHFL_EXCEPTION` and `CHFL_INVEX`. -/
inductive BanType
  | ban
  | exception
  | invex
deriving DecidableEq, Repr

/-- The list of a type. -/
def Channel.list (ch : Channel) : BanType → List Ban
  | .ban => ch.banlist
  | .exception => ch.exceptlist
  | .invex => ch.invexlist

/-- Write a list back. -/
def Channel.setList (ch : Channel) (l : List Ban) : BanType → Channel
  | .ban => { ch with banlist := l }
  | .exception => { ch with exceptlist := l }
  | .invex => { ch with invexlist := l }

/-- Invalidate the verdicts cached in memberships. -/
def Channel.bump (ch : Channel) (e : ListEvent) : Channel :=
  { ch with banSerial := ch.banSerial + 1, history := e :: ch.history }

/-- Only bans and exceptions take part in the cached verdicts. -/
def Channel.bumpFor (ch : Channel) (e : ListEvent) : BanType → Channel
  | .ban => ch.bump e
  | .exception => ch.bump e
  | .invex => ch

end Bluebox.Chan
