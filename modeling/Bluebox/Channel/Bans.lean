/-
  Bluebox.Channel.Bans

  The ban, exception and invex lists: adding and removing entries (`add_id`
  and `del_id` of `modules/core/m_mode.c`), matching a client against them and
  the verdict cached in its membership (`is_banned` and `can_send` of
  `libratboxcore/channel.c`).
-/
import Bluebox.Channel.Basic
import Bluebox.Inet

namespace Bluebox.Chan

open Bluebox.Lib

-- ============================================================================
-- Matching a client
-- ============================================================================

/-- `strrchr`: the text before and after the last `c`. -/
def splitLast (c : UInt8) (s : Bytes) : Option (Bytes × Bytes) :=
  match s.reverse.dropWhile (· != c) with
  | [] => none
  | _ :: l => some (l.reverse, (s.reverse.takeWhile (· != c)).reverse)

/-- The bits of an address. -/
def addrBits (v6 : Bool) : Nat := if v6 then 128 else 32

/-- The bits from an address on once `rb_inet_pton` has been called for it: those that it has not
    written are what they were. -/
def writtenBits (v6 : Bool) (src : Bytes) (storage : Nat → Bool) (i : Nat) : Bool :=
  match rbInetPton v6 src with
  | none => storage i
  | some bytes => if i < addrBits v6 then (ipOfBytes v6 bytes).bits i else storage i

/-- The parts that `match_cidr` takes from the mask `n!u@ip/len` and from `n!u@ip`. -/
structure CidrParts where
  mask : Bytes
  ipmask : Bytes
  cidrlen : Int
  address : Bytes
  ip : Bytes

/-- `match_cidr` up to the comparison: both addresses are of one family, and the length is not 0. -/
def cidrParts (s1 s2 : Bytes) : Option CidrParts :=
  match splitLast 64 (strlcpy s1 bufSize), splitLast 64 (strlcpy s2 banLen) with
  | some (mask, ipmask), some (address, ip) =>
    match splitLast 47 ipmask with
    | none => none
    | some (ipmask, len) =>
      let cidrlen := atoi len
      if cidrlen = 0 then none
      else if ip.contains 58 != ipmask.contains 58 then none
      else some ⟨mask, ipmask, cidrlen, address, ip⟩
  | _, _ => none

/-- `AF_INET6`. -/
def CidrParts.v6 (p : CidrParts) : Bool := p.ip.contains 58

/-- `match_cidr`.  It asks neither whether the texts were addresses nor how long the mask may be. -/
def matchCidr (cfg : Config) (s1 s2 : Bytes) : Bool :=
  match cidrParts s1 s2 with
  | none => false
  | some p =>
    Patricia.compWithMask (writtenBits p.v6 p.ip (cfg.storage s1 s2 false))
        (writtenBits p.v6 p.ipmask (cfg.storage s1 s2 true)) (p.cidrlen % 2 ^ 32).toNat
      && matchMask p.mask p.address

/-- `nick!user@host`. -/
def userHost (nick user host : Bytes) : Bytes := nick ++ 33 :: user ++ 64 :: host

/-- Whether one entry applies to a client, under any of its three names. -/
def Ban.covers (cfg : Config) (b : Ban) (who : Client) : Bool :=
  matchMask b.banstr (userHost who.name who.username who.host)
    || matchMask b.banstr (userHost who.name who.username who.virthost)
    || matchMask b.banstr (userHost who.name who.username who.sockhost)
    || matchCidr cfg b.banstr (userHost who.name who.username who.sockhost)

/-- What `is_banned` returns: nothing, `CHFL_BAN` or `CHFL_EXCEPTION`. -/
inductive BanVerdict
  | clear
  | banned
  | exempt
deriving DecidableEq, Repr

/-- `is_banned`, without a membership to cache the verdict in. -/
def isBanned (cfg : Config) (ch : Channel) (who : Client) : BanVerdict :=
  if !who.myClient then .clear
  else if ch.banlist.any (·.covers cfg who) then
    if cfg.useExcept && ch.exceptlist.any (·.covers cfg who) then .exempt else .banned
  else .clear

/-- `is_banned` with the membership: the verdict is cached with the serial of
    the lists it was made for. -/
def cacheVerdict (cfg : Config) (ch : Channel) (who : Client) (m : Membership) : Membership :=
  if !who.myClient then m
  else if isBanned cfg ch who = .banned then
    { m with banSerial := ch.banSerial, flags := m.flags ||| chflBanned }
  else { m with banSerial := ch.banSerial, flags := m.flags &&& ~~~chflBanned }

/-- Drop the cached verdict. -/
def forgetVerdict (m : Membership) : Membership :=
  { m with banSerial := 0, flags := m.flags &&& ~~~chflBanned }

/-- What `can_send` returns. -/
inductive CanSend
  | no
  | nonop
  | opv
deriving DecidableEq, Repr

/-- `can_send`, with the channel it leaves. -/
def canSend (cfg : Config) (ch : Channel) (c : Nat) (who : Client) : Channel × CanSend :=
  if who.isServer then (ch, .opv)
  else if who.myClient && cfg.resv ch.chname && !who.oper && !who.exemptResv then (ch, .no)
  else
    match ch.findMembership c with
    | none =>
      if ch.mode.mode &&& modeNoprivmsgs != 0 || ch.mode.mode &&& modeModerated != 0 then (ch, .no)
      else (ch, .nonop)
    | some m =>
      if m.isChanopVoiced then (ch, .opv)
      else if ch.mode.mode &&& modeModerated != 0 then (ch, .no)
      else if cfg.quietOnBan && who.myClient then
        if m.banSerial = ch.banSerial then (ch, if m.canSendBanned then .no else .nonop)
        else
          (ch.modifyMember c (cacheVerdict cfg ch who),
            if isBanned cfg ch who = .banned then .no else .nonop)
      else (ch, .nonop)

/-- The answer of `can_send` when the lists are consulted every time. -/
def canSendUncached (cfg : Config) (ch : Channel) (c : Nat) (who : Client) : CanSend :=
  if who.isServer then .opv
  else if who.myClient && cfg.resv ch.chname && !who.oper && !who.exemptResv then .no
  else
    match ch.findMembership c with
    | none =>
      if ch.mode.mode &&& modeNoprivmsgs != 0 || ch.mode.mode &&& modeModerated != 0 then .no
      else .nonop
    | some m =>
      if m.isChanopVoiced then .opv
      else if ch.mode.mode &&& modeModerated != 0 then .no
      else if cfg.quietOnBan && who.myClient then
        if isBanned cfg ch who = .banned then .no else .nonop
      else .nonop

-- ============================================================================
-- Changing the lists
-- ============================================================================

/-- `allocate_ban`. -/
def allocateBan (banstr who : Bytes) (now : Int) : Ban :=
  ⟨strlcpy banstr banLen, strlcpy who banLen, now⟩

/-- Who set an entry, as `add_id` writes it. -/
def banSetter (source : Client) : Bytes :=
  if source.isClient then
    userHost source.name source.username (if source.cloaked then source.virthost else source.host)
  else strlcpy source.name banLen

/-- The checks of `add_id`: a local source may not overflow the lists or set what
    an entry already covers, a remote one may not repeat an entry. -/
def addRefused (cfg : Config) (ch : Channel) (source : Client) (banid : Bytes) (k : BanType) : Bool :=
  if source.myClient then
    ch.banlist.length + ch.exceptlist.length + ch.invexlist.length ≥ cfg.maxBans
      || (ch.list k).any fun b => matchMask b.banstr banid
  else (ch.list k).any fun b => irccmp b.banstr banid == 0

/-- `add_id`: the channel with the new entry, or none when it is refused. -/
def addId (cfg : Config) (ch : Channel) (source : Client) (banid : Bytes) (k : BanType) (now : Int) :
    Option Channel :=
  if addRefused cfg ch source banid k then none
  else
    some ((ch.setList (allocateBan banid (banSetter source) now :: ch.list k) k).bumpFor .added k)

/-- `del_id`: the channel without the first entry that compares equal, or none
    when there is no such entry. -/
def delId (ch : Channel) (banid : Bytes) (k : BanType) : Option Channel :=
  if banid = [] then none
  else if (ch.list k).any fun b => irccmp banid b.banstr == 0 then
    some ((ch.setList ((ch.list k).eraseP fun b => irccmp banid b.banstr == 0) k).bumpFor .removed k)
  else none

-- ============================================================================
-- The fields of a changed list
-- ============================================================================

section Fields

variable (ch : Channel) (l : List Ban) (e : ListEvent) (k : BanType)

@[simp] theorem list_setList_bumpFor : ((ch.setList l k).bumpFor e k).list k = l := by
  cases k <;> rfl

theorem list_setList_bumpFor_of_ne {j : BanType} (h : j ≠ k) :
    ((ch.setList l k).bumpFor e k).list j = ch.list j := by
  cases k <;> cases j <;> first | rfl | exact absurd rfl h

@[simp] theorem mode_setList_bumpFor : ((ch.setList l k).bumpFor e k).mode = ch.mode := by
  cases k <;> rfl

@[simp] theorem members_setList_bumpFor : ((ch.setList l k).bumpFor e k).members = ch.members := by
  cases k <;> rfl

@[simp] theorem chname_setList_bumpFor : ((ch.setList l k).bumpFor e k).chname = ch.chname := by
  cases k <;> rfl

@[simp] theorem channelts_setList_bumpFor :
    ((ch.setList l k).bumpFor e k).channelts = ch.channelts := by
  cases k <;> rfl

end Fields

/-- What a successful `add_id` did. -/
theorem addId_eq_some {cfg : Config} {ch ch' : Channel} {source : Client} {banid : Bytes}
    {k : BanType} {now : Int} (h : addId cfg ch source banid k now = some ch') :
    addRefused cfg ch source banid k = false ∧
      ch' = (ch.setList (allocateBan banid (banSetter source) now :: ch.list k) k).bumpFor .added k := by
  unfold addId at h
  by_cases href : addRefused cfg ch source banid k = true
  · rw [if_pos href] at h
    cases h
  · rw [if_neg href] at h
    exact ⟨by simpa using href, (Option.some.inj h).symm⟩

/-- What a successful `del_id` did. -/
theorem delId_eq_some {ch ch' : Channel} {banid : Bytes} {k : BanType}
    (h : delId ch banid k = some ch') :
    ch' = (ch.setList ((ch.list k).eraseP fun b => irccmp banid b.banstr == 0) k).bumpFor .removed k := by
  unfold delId at h
  split at h
  · cases h
  · split at h
    · exact (Option.some.inj h).symm
    · cases h

end Bluebox.Chan
