/-
  Bluebox.Gline.Basic

  Votes for G-lines: `majority_gline` and `expire_pending_glines` of
  `modules/m_gline.c`, and the list of G-lines that they look at.

  A record of `pending_glines` holds the first two votes for a mask.  The third one
  calls `set_local_gline`, and the record goes when it expires or when its mask is
  among the G-lines.
-/
import Bluebox.Lib.First
import Bluebox.Lib.Reach
import Bluebox.Atable
import Bluebox.Channel.Basic

namespace Bluebox.Gline

open Bluebox.Lib

-- ============================================================================
-- Data
-- ============================================================================

/-- The source of a vote.  The fields of `struct Client` bound the lengths; a name of
    a user that is voting is not empty. -/
structure Oper where
  name : Bytes
  username : Bytes
  host : Bytes
  server : Bytes
  username_fits : username.length ≤ userLen
  host_fits : host.length ≤ hostLen
  username_ne : username ≠ []
  server_ne : server ≠ []
  username_noNul : NoNul username
  host_noNul : NoNul host
  server_noNul : NoNul server

/-- A mask that fits `USERLEN` and `HOSTLEN`. -/
structure Mask where
  user : Bytes
  host : Bytes
  user_fits : user.length ≤ userLen
  host_fits : host.length ≤ hostLen
  user_noNul : NoNul user
  host_noNul : NoNul host

/-- A call of `majority_gline`. -/
structure Vote where
  oper : Oper
  mask : Mask
  reason : Bytes
  time : Int

/-- `struct gline_pending`. -/
structure Pending where
  operNick1 : Bytes
  operUser1 : Bytes
  operHost1 : Bytes
  operServer1 : Bytes
  reason1 : Bytes
  timeRequest1 : Int
  operNick2 : Bytes
  operUser2 : Bytes
  operHost2 : Bytes
  operServer2 : Bytes
  reason2 : Bytes
  timeRequest2 : Int
  lastGlineTime : Int
  user : Bytes
  host : Bytes
deriving DecidableEq, Repr

/-- `GLINE_PENDING_EXPIRE`. -/
def glinePendingExpire : Int := 600

/-- The `ConfItem` of a G-line. -/
structure Conf where
  user : Bytes
  host : Bytes
  reason : Bytes
  hold : Int
deriving DecidableEq, Repr

/-- The settings, and how addresses are read. -/
structure Config where
  glineTime : Int
  pton : Bytes → Option IpAddr

/-- The lists of the module and the names of servers in `scache`.  `history` is a
    ghost: the votes so far, newest first. -/
structure State where
  pendingGlines : List Pending
  glines : List Conf
  scache : List Bytes
  now : Int
  history : List Vote

/-- A server without G-lines. -/
def State.start : State := ⟨[], [], [], 0, []⟩

-- ============================================================================
-- Lookups
-- ============================================================================

/-- `find_is_glined`. -/
def State.findIsGlined (s : State) (host user : Bytes) : Option Conf :=
  s.glines.find? fun aconf => irccmp aconf.user user == 0 && irccmp aconf.host host == 0

/-- The record is for a mask. -/
def Pending.isFor (p : Pending) (mask : Mask) : Bool :=
  irccmp p.user mask.user == 0 && irccmp p.host mask.host == 0

/-- The first vote was from the same operator or server. -/
def Pending.votedFirst (p : Pending) (oper : Oper) : Bool :=
  (irccmp p.operUser1 oper.username == 0 && irccmp p.operHost1 oper.host == 0) ||
    irccmp p.operServer1 oper.server == 0

/-- The second vote was from the same operator or server. -/
def Pending.votedSecond (p : Pending) (oper : Oper) : Bool :=
  (irccmp p.operUser2 oper.username == 0 && irccmp p.operHost2 oper.host == 0) ||
    irccmp p.operServer2 oper.server == 0

/-- `scache_add`: the name, as it was spelt first. -/
def scacheAdd (scache : List Bytes) (name : Bytes) : Bytes × List Bytes :=
  match scache.find? fun n => irccmp n name == 0 with
  | some n => (n, scache)
  | none => (name, name :: scache)

-- ============================================================================
-- majority_gline
-- ============================================================================

/-- `expire_pending_glines`. -/
def State.expirePendingGlines (s : State) (now : Int) : State :=
  { s with pendingGlines := s.pendingGlines.filter fun p =>
      !(decide (p.lastGlineTime + glinePendingExpire ≤ now) || (s.findIsGlined p.host p.user).isSome) }

/-- `set_local_gline`.  The date that is put behind the reason is left out. -/
def State.setLocalGline (cfg : Config) (s : State) (mask : Mask) (reason : Bytes) (now : Int) :
    State :=
  { s with glines := s.glines ++ [⟨mask.user, mask.host, reason, now + cfg.glineTime⟩] }

/-- The record of a first vote. -/
def newPending (v : Vote) (server : Bytes) : Pending where
  operNick1 := strlcpy v.oper.name (nickLen + 1)
  operUser1 := strlcpy v.oper.username (userLen + 1)
  operHost1 := strlcpy v.oper.host (hostLen + 1)
  operServer1 := server
  reason1 := v.reason
  timeRequest1 := v.time
  operNick2 := []
  operUser2 := []
  operHost2 := []
  operServer2 := []
  reason2 := []
  timeRequest2 := 0
  lastGlineTime := v.time
  user := strlcpy v.mask.user (userLen + 1)
  host := strlcpy v.mask.host (hostLen + 1)

/-- A second vote goes to the record. -/
def Pending.second (v : Vote) (server : Bytes) (p : Pending) : Pending :=
  { p with
    operNick2 := strlcpy v.oper.name (nickLen + 1)
    operUser2 := strlcpy v.oper.username (userLen + 1)
    operHost2 := strlcpy v.oper.host (hostLen + 1)
    operServer2 := server
    reason2 := v.reason
    lastGlineTime := v.time
    timeRequest2 := v.time }

/-- The records and the names of servers after a vote. -/
def State.setPending (s : State) (pendingGlines : List Pending) (scache : List Bytes) : State :=
  { s with pendingGlines := pendingGlines, scache := scache }

/-- `majority_gline`, and the reason that it calls `set_local_gline` with, if it
    does. -/
def State.majorityGline (cfg : Config) (s : State) (v : Vote) : State × Option Bytes :=
  let s := s.expirePendingGlines v.time
  if (s.findIsGlined v.mask.host v.mask.user).isSome then (s, none)
  else
    match s.pendingGlines.find? fun p => p.isFor v.mask with
    | some p =>
      if p.votedFirst v.oper then (s, none)
      else if p.operUser2 ≠ [] then
        if p.votedSecond v.oper then (s, none)
        else
          ((s.setLocalGline cfg v.mask p.reason1 v.time).expirePendingGlines v.time,
            some p.reason1)
      else
        let server := scacheAdd s.scache v.oper.server
        (s.setPending (updateFirst (fun p => p.isFor v.mask) (Pending.second v server.1)
          s.pendingGlines) server.2, none)
    | none =>
      let server := scacheAdd s.scache v.oper.server
      (s.setPending (newPending v server.1 :: s.pendingGlines) server.2, none)

-- ============================================================================
-- Other events
-- ============================================================================

/-- `expire_glines`. -/
def State.expireGlines (s : State) (now : Int) : State :=
  { s with glines := s.glines.filter fun aconf => decide (aconf.hold > now) }

/-- The test of `remove_temp_gline` for a G-line. -/
def Conf.sameMask (pton : Bytes → Option IpAddr) (user host : Bytes) (aconf : Conf) : Bool :=
  irccmp user aconf.user == 0 &&
    match parseNetmask pton host, parseNetmask pton aconf.host with
    | none, none => irccmp aconf.host host == 0
    | some m, some g =>
      m.v6 == g.v6 && decide (m.bits = g.bits) && m.addr.compWithMask g.addr m.bits
    | _, _ => false

/-- `remove_temp_gline`. -/
def State.removeTempGline (cfg : Config) (s : State) (user host : Bytes) : State :=
  { s with glines := s.glines.eraseP (Conf.sameMask cfg.pton user host) }

/-- What can happen: a vote, one of the two timers, an operator takes a G-line back. -/
inductive Event
  | vote (v : Vote)
  | expirePendingGlines (now : Int)
  | expireGlines (now : Int)
  | ungline (user host : Bytes) (now : Int)

/-- The time of an event. -/
def Event.time : Event → Int
  | .vote v => v.time
  | .expirePendingGlines now => now
  | .expireGlines now => now
  | .ungline _ _ now => now

/-- A vote goes to the ghost. -/
def State.record (s : State) (v : Vote) : State := { s with history := v :: s.history }

/-- What an event does to the lists. -/
def State.apply (cfg : Config) (s : State) : Event → State
  | .vote v => (s.majorityGline cfg v).1.record v
  | .expirePendingGlines now => s.expirePendingGlines now
  | .expireGlines now => s.expireGlines now
  | .ungline user host _ => s.removeTempGline cfg user host

/-- An event, at a time that does not go back. -/
def State.step (cfg : Config) (s : State) (e : Event) : Option State :=
  if e.time < s.now then none else some { s.apply cfg e with now := e.time }

end Bluebox.Gline
