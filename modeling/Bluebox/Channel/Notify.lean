/-
  Bluebox.Channel.Notify

  The lines that local clients are sent when a user changes its nick, joins and leaves
  channels, changes channel modes and exits (`modules/core/m_nick.c`, `m_join.c` and
  `m_mode.c`, `modules/m_services.c`, `libratboxcore/client.c` and `monitor.c`).

  Lines to servers, to operators (`sendto_realops_flags`) and to the user alone are left
  out, and a line is its text before it is cut.  Each of these functions spells out
  anew which host of the user others see.
-/
import Bluebox.Lib.Once
import Bluebox.Channel.ModeBuf

namespace Bluebox.Notify

open Bluebox.Lib Bluebox.Chan
open Bluebox.ModeBuf (Shown memberShown memberStart lineFull)

-- ============================================================================
-- Who is sent a line
-- ============================================================================

/-- A line, and the client it is for. -/
abbrev Line := Nat × Bytes

/-- The channels and clients, with what else the recipients depend on: the name of this
    server and of the servers of users, who monitors a nick, the channels of a user
    (`user->channel`) and the connections that failed. -/
structure Net where
  srv : Server
  me : Bytes
  servptr : Nat → Bytes
  watching : Bytes → List Nat
  channel : Nat → List Nat
  ioError : Nat → Bool

/-- A local client whose connection works. -/
def Net.hears (net : Net) (d : Nat) : Bool :=
  (net.srv.client d).any (·.myConnect) && !net.ioError d

/-- `sendto_channel_local`. -/
def Net.toChannel (net : Net) (ch : Channel) (flags : Mems) (text : Bytes) : List Line :=
  (ch.members.filter fun m => net.hears m.clientP && (flags == .allMembers || m.isChanop)).map
    fun m => (m.clientP, text)

/-- `sendto_common_channels_local`: everyone once, and the user at least. -/
def Net.toCommon (net : Net) (c : Nat) (text : Bytes) : List Line :=
  let members := (net.channel c).flatMap fun p => (net.srv.table.chan p).members.map (·.clientP)
  let served := once [] (members.filter net.hears)
  let user := if (net.srv.client c).any (·.myConnect) && !served.contains c then [c] else []
  (served ++ user).map fun d => (d, text)

/-- `sendto_monitor` to those who monitor a nick. -/
def Net.toMonitor (net : Net) (nick text : Bytes) : List Line :=
  ((net.watching nick).filter fun d => !net.ioError d).map fun d => (d, text)

-- ============================================================================
-- MONITOR
-- ============================================================================

/-- `nick!user@host` with the host others see. -/
def shown (cl : Client) : Bytes :=
  userHost cl.name cl.username (if cl.cloaked then cl.virthost else cl.host)

/-- `monitor_signon`: `RPL_MONONLINE`. -/
def Net.monitorSignon (net : Net) (cl : Client) : List Line :=
  net.toMonitor cl.name
    (58 :: net.me ++ [32, 55, 51, 48, 32, 42, 32, 58] ++ strlcpy (shown cl) userhostReplyLen)

/-- `monitor_signoff`: `RPL_MONOFFLINE`. -/
def Net.monitorSignoff (net : Net) (cl : Client) : List Line :=
  net.toMonitor cl.name (58 :: net.me ++ [32, 55, 51, 49, 32, 42, 32, 58] ++ cl.name)

/-- `register_client`: the modes of the new user are read after those who monitor its nick
    have been told. -/
def Net.registerClient (net : Net) (cl : Client) : List Line :=
  net.monitorSignon { cl with cloaked := false }

-- ============================================================================
-- NICK and QUIT
-- ============================================================================

/-- The `NICK` line. -/
def nickText (who nick : Bytes) : Bytes := 58 :: who ++ [32, 78, 73, 67, 75, 32, 58] ++ nick

/-- `change_local_nick` and `change_remote_nick`. -/
def Net.changeNick (net : Net) (c : Nat) (cl : Client) (nick : Bytes) : List Line :=
  let samenick := irccmp cl.name nick == 0
  (if samenick then [] else net.monitorSignoff cl) ++ net.toCommon c (nickText (shown cl) nick) ++
    if samenick then [] else net.monitorSignon { cl with name := nick }

/-- `exit_generic_client`. -/
def Net.exitLines (net : Net) (c : Nat) (cl : Client) (comment : Bytes) : List Line :=
  net.toCommon c (58 :: shown cl ++ [32, 81, 85, 73, 84, 32, 58] ++ comment) ++ net.monitorSignoff cl

/-- The user leaves the channels of its list. -/
def leaveAll (t : Table) (c : Nat) (ps : List Nat) : Table :=
  ps.foldl (fun t p => removeUserFromChannel t p c) t

/-- The state after an exit; a local user monitors nobody any more. -/
def Net.exit (net : Net) (c : Nat) (cl : Client) : Net :=
  { net with
    srv := { net.srv with
      table := leaveAll net.srv.table c (net.channel c)
      clients := net.srv.clients.filter fun x => x.1 != c }
    watching := fun nick =>
      if cl.myConnect then (net.watching nick).filter (· != c) else net.watching nick
    channel := Function.update net.channel c [] }

/-- The text of a `KILL` for a nick that services want back, and of the exit that follows. -/
def regained : Bytes :=
  [40, 78, 105, 99, 107, 110, 97, 109, 101, 32, 114, 101, 103, 97, 105, 110, 101, 100, 32, 98, 121, 32,
    115, 101, 114, 118, 105, 99, 101, 115, 41]

/-- The end of `me_rsfnc`. -/
def Net.forceNick (net : Net) (c : Nat) (cl : Client) (nick : Bytes) : List Line :=
  net.monitorSignoff cl ++
    net.toCommon c (nickText (userHost cl.name cl.username cl.host) nick) ++
    net.monitorSignon { cl with name := nick }

/-- `me_rsfnc`, once its checks are passed: another user with the nick is killed. -/
def Net.meRsfnc (net : Net) (c : Nat) (cl : Client) (nick : Bytes) : List Line :=
  match findNamedClient net.srv nick with
  | none => net.forceNick c cl nick
  | some (d, other) =>
    if d = c then []
    else
      (if other.myClient then
        [(d, 58 :: net.me ++ [32, 75, 73, 76, 76, 32] ++ other.name ++ 32 :: 58 :: regained)] else []) ++
      net.exitLines d other
        ([75, 105, 108, 108, 101, 100, 32, 40] ++ net.me ++ 32 :: regained ++ [41]) ++
      (net.exit d other).forceNick c cl nick

-- ============================================================================
-- Modes
-- ============================================================================

/-- Signs and letters of changes. -/
def signs : Dir → List Shown → Bytes
  | _, [] => []
  | dir, m :: l =>
    (if dir = m.dir then [m.letter] else [if m.dir = .add then 43 else 45, m.letter]) ++ signs m.dir l

/-- The arguments of changes, each with a space behind it. -/
def params (l : List Shown) : Bytes := l.flatMap fun m => m.arg.elim [] (· ++ [32])

/-- The lines of `set_channel_mode` to members; `line` are the changes of the one at hand. -/
def memberLines (start : Bytes) (line : List Shown) : List Shown → List Bytes
  | [] => if line = [] then [] else [start ++ signs .query line ++ 32 :: (params line).dropLast]
  | m :: l =>
    if lineFull start.length line m then
      if line = [] then memberLines start line l
      else (start ++ signs .query line ++ 32 :: params line) :: memberLines start [m] l
    else memberLines start (line ++ [m]) l

/-- What `set_channel_mode` tells the members. -/
def Net.modeLines (net : Net) (source : Client) (w : Walk) : List Line :=
  if w.modeChanges.isEmpty then []
  else
    [Mems.allMembers, .onlyChanops].flatMap fun flags =>
      (memberLines (memberStart source w.ch.chname) [] (memberShown w flags)).flatMap
        (net.toChannel w.ch flags)

/-- `flags` of `m_join.c`. -/
def modeFlags : List (UInt32 × UInt8) :=
  [(modeNoprivmsgs, 110), (modeTopiclimit, 116), (modeSecret, 115), (modeModerated, 109),
    (modeInviteonly, 105), (modePrivate, 112), (modeRegonly, 114), (modeSslonly, 83)]

/-- The changes `set_final_mode` makes a line of. -/
def finalChanges (mode oldmode : Mode) : List Shown :=
  ((modeFlags.filter fun f => mode.mode &&& f.1 != 0 && oldmode.mode &&& f.1 == 0).map
      fun f => ⟨f.2, .add, none⟩) ++
    ((modeFlags.filter fun f => oldmode.mode &&& f.1 != 0 && mode.mode &&& f.1 == 0).map
      fun f => ⟨f.2, .del, none⟩) ++
    (if oldmode.limit ≠ 0 ∧ mode.limit = 0 then [⟨108, .del, none⟩] else []) ++
    (if oldmode.key ≠ [] ∧ mode.key = [] then [⟨107, .del, some oldmode.key⟩] else []) ++
    (if mode.limit ≠ 0 ∧ oldmode.limit ≠ mode.limit then [⟨108, .add, some (fmtInt mode.limit)⟩] else []) ++
    if mode.key ≠ [] ∧ oldmode.key ≠ mode.key then [⟨107, .add, some mode.key⟩] else []

/-- `set_final_mode`. -/
def Net.setFinalMode (net : Net) (source : Bytes) (ch : Channel) (mode oldmode : Mode) : List Line :=
  let changes := finalChanges mode oldmode
  let start := 58 :: source ++ [32, 77, 79, 68, 69, 32] ++ ch.chname ++ 32 :: signs .query changes
  if changes = [] then []
  else if params changes = [] then net.toChannel ch .allMembers start
  else net.toChannel ch .allMembers (start ++ 32 :: (params changes).dropLast)

/-- The statuses that a member loses. -/
def lostStatus (name : Bytes) (m : Membership) : List (UInt8 × Bytes) :=
  (if m.isChanop then [(111, name)] else []) ++ (if m.isHalfop then [(104, name)] else []) ++
    if m.isVoiced then [(118, name)] else []

/-- `remove_our_modes`: four statuses a line, and as many parameters on the last one. -/
def Net.removeOurModes (net : Net) (ch : Channel) : List Line :=
  let lost := ch.members.flatMap fun m =>
    lostStatus (((net.srv.client m.clientP).map (·.name)).getD []) m
  (lost.toChunks maxModeParams).flatMap fun chunk =>
    net.toChannel ch .allMembers (58 :: net.me ++ [32, 77, 79, 68, 69, 32] ++ ch.chname ++
      32 :: 45 :: chunk.map (·.1) ++
      (List.range maxModeParams).flatMap fun i => 32 :: ((chunk[i]?).map (·.2)).getD [])

-- ============================================================================
-- JOIN
-- ============================================================================

/-- The `JOIN` line. -/
def joinText (cl : Client) (chname : Bytes) : Bytes :=
  58 :: shown cl ++ [32, 74, 79, 73, 78, 32, 58] ++ chname

/-- The channel that `m_join` enters, with its address. -/
def mJoinEnters (cfg : Config) (srv : Server) (c : Nat) (source : Client) (name key : Bytes)
    (permitted invited : Bool) (now : Int) : Option (Nat × Channel) :=
  if !checkChannelName name || name.length > locChannelLen || !isChannelName name || !permitted then
    none
  else
    match findChannel srv.table name with
    | some p =>
      if (srv.table.chan p).isMember c then none
      else if canJoin cfg (srv.table.chan p) source key invited then some (p, srv.table.chan p)
      else none
    | none =>
      match getOrCreateChannel srv.table name now with
      | (_, none) => none
      | (t, some (p, _)) =>
        if canJoin cfg (t.chan p) source key invited then some (p, t.chan p) else none

/-- This is the channel that `m_join` changes. -/
theorem mJoin_of_enters {cfg : Config} {srv : Server} {c p : Nat} {source : Client} {name key : Bytes}
    {permitted invited : Bool} {now : Int} {ch : Channel}
    (h : mJoinEnters cfg srv c source name key permitted invited now = some (p, ch)) :
    (mJoin cfg srv c source name key permitted invited now).table.chan p = Chan.enterLocal ch c now := by
  unfold mJoinEnters at h
  unfold mJoin
  split at h
  · cases h
  rename_i hok
  rw [if_neg hok]
  cases hfind : findChannel srv.table name with
  | some q =>
    rw [hfind] at h
    dsimp only at h ⊢
    split at h
    · cases h
    rename_i hmem
    rw [if_neg hmem]
    split at h
    · rename_i hcan
      obtain ⟨rfl, rfl⟩ := Prod.mk.inj (Option.some.inj h)
      rw [if_pos hcan]
      exact Function.update_self q _ _
    · cases h
  | none =>
    rw [hfind] at h
    dsimp only at h ⊢
    generalize getOrCreateChannel srv.table name now = created at h ⊢
    obtain ⟨t, o⟩ := created
    cases o with
    | none => cases h
    | some x =>
      dsimp only at h ⊢
      split at h
      · rename_i hcan
        obtain ⟨rfl, rfl⟩ := Prod.mk.inj (Option.some.inj h)
        rw [if_pos hcan]
        exact Function.update_self x.1 _ _
      · cases h

/-- What members are told of a local user's join; a new channel gets its default modes. -/
def Net.enterLocal (net : Net) (ch : Channel) (c : Nat) (source : Client) (now : Int) : List Line :=
  let joined := Chan.enterLocal ch c now
  net.toChannel joined .allMembers (joinText source joined.chname) ++
    if ch.members = [] then
      net.toChannel joined .onlyChanops
        (58 :: net.me ++ [32, 77, 79, 68, 69, 32] ++ joined.chname ++ [32, 43, 110, 116])
    else []

/-- `*** Notice -- TS for ... changed from ... to ...`. -/
def Net.tsNotice (net : Net) (ch : Channel) (oldts newts : Int) : List Line :=
  net.toChannel ch .allMembers (58 :: net.me ++ [32, 78, 79, 84, 73, 67, 69, 32] ++ ch.chname ++
    [32, 58, 42, 42, 42, 32, 78, 111, 116, 105, 99, 101, 32, 45, 45, 32, 84, 83, 32, 102, 111, 114, 32] ++
    ch.chname ++ [32, 99, 104, 97, 110, 103, 101, 100, 32, 102, 114, 111, 109, 32] ++ fmtInt oldts ++
    [32, 116, 111, 32] ++ fmtInt newts)

/-- What members are told of a remote user's join. -/
def Net.enterRemote (net : Net) (isnew : Bool) (newts : Int) (c : Nat) (source : Client)
    (ch : Channel) : List Line :=
  let t := tsCompare isnew ch.channelts newts
  let joined := Chan.enterRemote isnew newts c ch
  (if !isnew && newts == 0 && ch.channelts != 0 then net.tsNotice ch ch.channelts 0 else []) ++
    (if t.keepOurModes then []
      else net.removeOurModes ch ++ net.tsNotice ch ch.channelts newts ++
        net.setFinalMode (net.servptr c) ch Mode.none ch.mode) ++
    if ch.isMember c then [] else net.toChannel joined .allMembers (joinText source joined.chname)

/-- The channel that `ms_join` and `mc_sjoin` work on: its address, whether it is new, and
    the channel. -/
def msJoinEnters (srv : Server) (name : Bytes) (now : Int) : Option (Nat × Bool × Channel) :=
  if !isChannelName name || !checkChannelName name || name.head? == some 38 then none
  else
    match getOrCreateChannel srv.table name now with
    | (_, none) => none
    | (t, some (p, isnew)) => some (p, isnew, t.chan p)

/-- `do_join_0`, with the channels that are left. -/
def Net.doJoin0 (net : Net) (c : Nat) (cl : Client) : Table → List Nat → List Line
  | _, [] => []
  | t, p :: ps =>
    net.toChannel (t.chan p) .allMembers
        (58 :: shown cl ++ [32, 80, 65, 82, 84, 32] ++ (t.chan p).chname) ++
      net.doJoin0 c cl (removeUserFromChannel t p c) ps

-- ============================================================================
-- What a user does
-- ============================================================================

/-- What a user does, or what happens to it.  A `JOIN` of several channels is several of
    these, and so is one with a leading `0`. -/
inductive Act
  | localNick (nick : Bytes) (tooFast : Bool)
  | remoteNick (nick : Bytes)
  | join (name key : Bytes) (permitted invited : Bool) (now : Int)
  | remoteJoin (ts name : Bytes) (now : Int)
  | joinZero
  | mode (dest : Bytes) (parv : List Bytes) (history : Bytes → Option Nat) (now : Int)
  | tmode (ts dest : Bytes) (parv : List Bytes) (history : Bytes → Option Nat) (now : Int)
  | exit (comment : Bytes)

/-- A new nick. -/
def Net.nick (net : Net) (c : Nat) (cl : Client) (nick : Bytes) : Net × List Line :=
  ({ net with srv := Chan.changeNick net.srv c cl nick }, net.changeNick c cl nick)

/-- The user has entered a channel. -/
def Net.entered (net : Net) (c p : Nat) (srv : Server) : Net :=
  { net with srv := srv, channel := Function.update net.channel c (p :: net.channel c) }

/-- `m_join` of one channel. -/
def Net.join (cfg : Config) (net : Net) (c : Nat) (cl : Client) (name key : Bytes)
    (permitted invited : Bool) (now : Int) : Net × List Line :=
  let srv := mJoin cfg net.srv c cl name key permitted invited now
  match mJoinEnters cfg net.srv c cl name key permitted invited now with
  | none => ({ net with srv := srv }, [])
  | some (p, ch) => (net.entered c p srv, net.enterLocal ch c cl now)

/-- `ms_join` and `mc_sjoin`. -/
def Net.remoteJoin (net : Net) (c : Nat) (cl : Client) (ts name : Bytes) (now : Int) :
    Net × List Line :=
  let srv := msJoin net.srv c ts name now
  match msJoinEnters net.srv name now with
  | none => ({ net with srv := srv }, [])
  | some (p, isnew, ch) =>
    (if ch.isMember c then { net with srv := srv } else net.entered c p srv,
      net.enterRemote isnew (atol ts) c cl ch)

/-- `JOIN 0`. -/
def Net.joinZero (net : Net) (c : Nat) (cl : Client) : Net × List Line :=
  ({ net with
      srv := { net.srv with table := leaveAll net.srv.table c (net.channel c) }
      channel := Function.update net.channel c [] },
    net.doJoin0 c cl net.srv.table (net.channel c))

/-- `set_channel_mode` on a channel; none when the server crashes. -/
def Net.runMode (net : Net) (source : Client) : Option (Nat × Call) → Option (Net × List Line)
  | none => some (net, [])
  | some (p, call) =>
    (setChannelMode call (net.srv.table.chan p)).map fun w =>
      ({ net with srv := { net.srv with table := net.srv.table.setChan p w.ch } },
        net.modeLines source w)

/-- The state after an act, and the lines it sends.  None when the user can not do this, or
    when the server crashes. -/
def Net.step (cfg : Config) (c : Nat) (net : Net) (a : Act) : Option (Net × List Line) :=
  (net.srv.client c).bind fun cl =>
    match a with
    | .localNick nick tooFast =>
      if cl.myClient then some (if tooFast then (net, []) else net.nick c cl nick) else none
    | .remoteNick nick => if cl.isClient && !cl.myConnect then some (net.nick c cl nick) else none
    | .join name key permitted invited now =>
      if cl.myClient then some (net.join cfg c cl name key permitted invited now) else none
    | .remoteJoin ts name now =>
      if cl.isClient && !cl.myConnect then some (net.remoteJoin c cl ts name now) else none
    | .joinZero => some (net.joinZero c cl)
    | .mode dest parv history now =>
      if cl.isClient then net.runMode cl (mMode cfg net.srv cl dest ⟨c, parv, history, now⟩) else none
    | .tmode ts dest parv history now =>
      if cl.isClient && !cl.myConnect then
        net.runMode cl (msTmode cfg net.srv cl ts dest ⟨c, parv, history, now⟩)
      else none
    | .exit comment => some (net.exit c cl, net.exitLines c cl comment)

/-- What a user does one after the other, with all lines. -/
def Net.run (cfg : Config) (c : Nat) : Net → List Act → Option (Net × List Line)
  | net, [] => some (net, [])
  | net, a :: acts =>
    (net.step cfg c a).bind fun r => (r.1.run cfg c acts).map fun s => (s.1, r.2 ++ s.2)

end Bluebox.Notify
