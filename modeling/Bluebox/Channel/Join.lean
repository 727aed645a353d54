/-
  Bluebox.Channel.Join

  Entering and leaving channels (`modules/core/m_join.c`): a local `JOIN`, the
  joins of remote users, and `SJOIN`, which brings a list of users with the
  modes and the time stamp of their side of the channel.

  All three remote joins decide by the time stamps whose modes survive; the
  decision is `tsCompare`.
-/
import Bluebox.Channel.Table
import Bluebox.Channel.ChMode

namespace Bluebox.Chan

open Bluebox.Lib

-- ============================================================================
-- The server
-- ============================================================================

/-- The channels and the clients of a server.  Addresses at or above
    `nextClient` have not been given to a client. -/
structure Server where
  table : Table
  clients : List (Nat × Client)
  nextClient : Nat

/-- A server without channels and clients. -/
def Server.start : Server := ⟨Table.start, [], 0⟩

/-- The client at an address. -/
def Server.client (srv : Server) (c : Nat) : Option Client :=
  (srv.clients.find? fun x => x.1 == c).map (·.2)

/-- The first client that meets a test.  The hash tables of the source only
    narrow the search. -/
def Server.search (srv : Server) (p : Client → Bool) : Option (Nat × Client) :=
  srv.clients.find? fun x => p x.2

/-- `find_named_client`. -/
def findNamedClient (srv : Server) (name : Bytes) : Option (Nat × Client) :=
  if name = [] then none else srv.search fun c => irccmp name c.name == 0

/-- `find_client`: a leading digit makes it an ID. -/
def findClient (srv : Server) (name : Bytes) : Option (Nat × Client) :=
  if name = [] then none
  else if isDigit (name.headD 0) then srv.search fun c => c.id == name
  else srv.search fun c => irccmp name c.name == 0

-- ============================================================================
-- Channel names
-- ============================================================================

/-- `IsChanChar`. -/
def isChanChar (b : UInt8) : Bool := b != 0 && b != 7 && b != 32 && b != 44

/-- `check_channel_name`. -/
def checkChannelName (name : Bytes) : Bool := name.all isChanChar

/-- `IsChannelName` and `IsChanPrefix`. -/
def isChannelName (name : Bytes) : Bool := name.head? == some 35 || name.head? == some 38

/-- `LOC_CHANNELLEN`. -/
def locChannelLen : Nat := 50

theorem noNul_of_checkChannelName {name : Bytes} (h : checkChannelName name = true) :
    NoNul name := by
  intro hmem
  have h0 := List.all_eq_true.mp h 0 hmem
  exact absurd h0 (by decide)

-- ============================================================================
-- Time stamps
-- ============================================================================

/-- Which modes survive, and the time stamp of the channel. -/
structure TsOutcome where
  ts : Int
  keepOurModes : Bool
  keepNewModes : Bool
deriving DecidableEq, Repr

/-- The decision of `ms_join`, `mc_sjoin` and `ms_sjoin`. -/
def tsCompare (isnew : Bool) (oldts newts : Int) : TsOutcome :=
  if isnew then ⟨newts, true, true⟩
  else if newts = 0 ∨ oldts = 0 then ⟨0, true, true⟩
  else if newts = oldts then ⟨oldts, true, true⟩
  else if newts < oldts then ⟨newts, false, true⟩
  else ⟨oldts, true, false⟩

/-- `remove_our_modes`: no member keeps a status. -/
def removeOurModes (ch : Channel) : Channel :=
  { ch with members := ch.members.map fun m =>
      { m with flags := m.flags &&& ~~~(chflChanop ||| chflHalfop ||| chflVoice) } }

-- ============================================================================
-- JOIN
-- ============================================================================

/-- `can_join`, true where it returns 0.  Whether the source was invited is known
    to the client. -/
def canJoin (cfg : Config) (ch : Channel) (source : Client) (key : Bytes) (invited : Bool) : Bool :=
  isBanned cfg ch source != .banned
    && (ch.mode.mode &&& modeInviteonly == 0 || invited
      || (cfg.useInvex && ch.invexlist.any (·.covers cfg source)))
    && (ch.mode.key == [] || (key != [] && irccmp ch.mode.key key == 0))
    && (ch.mode.limit == 0 || (ch.members.length : Int) < ch.mode.limit % 2 ^ 64)
    && (ch.mode.mode &&& modeRegonly == 0 || source.suser != [])
    && !(cfg.useSslonly && ch.mode.mode &&& modeSslonly != 0 && !source.ssl)

/-- What a local user's join does to the channel.  The first member becomes a
    channel operator and sets the default modes. -/
def enterLocal (ch : Channel) (c : Nat) (now : Int) : Channel :=
  if ch.members = [] then
    { addUserToChannel ch c chflChanop with
      channelts := now
      mode := { ch.mode with mode := ch.mode.mode ||| modeTopiclimit ||| modeNoprivmsgs } }
  else addUserToChannel ch c 0

/-- `m_join`, for one name of its list.  What reserved names, the split mode and
    the number of channels allow is `permitted`. -/
def mJoin (cfg : Config) (srv : Server) (c : Nat) (source : Client) (name key : Bytes)
    (permitted invited : Bool) (now : Int) : Server :=
  if !checkChannelName name || name.length > locChannelLen || !isChannelName name || !permitted then
    srv
  else
    match findChannel srv.table name with
    | some p =>
      if (srv.table.chan p).isMember c then srv
      else if canJoin cfg (srv.table.chan p) source key invited then
        { srv with table := srv.table.setChan p (enterLocal (srv.table.chan p) c now) }
      else srv
    | none =>
      match getOrCreateChannel srv.table name now with
      | (_, none) => srv
      | (t, some (p, _)) =>
        if canJoin cfg (t.chan p) source key invited then
          { srv with table := t.setChan p (enterLocal (t.chan p) c now) }
        else { srv with table := t }

/-- What a remote user's join does to the channel. -/
def enterRemote (isnew : Bool) (newts : Int) (c : Nat) (ch : Channel) : Channel :=
  let t := tsCompare isnew ch.channelts newts
  let ch := { ch with channelts := t.ts }
  let ch := if t.keepOurModes then ch else { removeOurModes ch with mode := Mode.none }
  if ch.isMember c then ch else addUserToChannel ch c 0

/-- `ms_join`, and `mc_sjoin` too, which differs in what it sends. -/
def msJoin (srv : Server) (c : Nat) (ts name : Bytes) (now : Int) : Server :=
  if !isChannelName name || !checkChannelName name || name.head? == some 38 then srv
  else
    match getOrCreateChannel srv.table name now with
    | (_, none) => srv
    | (t, some (p, isnew)) =>
      { srv with table := t.setChan p (enterRemote isnew (atol ts) c (t.chan p)) }

-- ============================================================================
-- SJOIN
-- ============================================================================

/-- An `SJOIN`: the link it came over, the ID of its source, the time stamp, the
    channel, the mode letters and all parameters behind them. -/
structure Sjoin where
  link : Nat
  sourceId : Bytes
  ts : Bytes
  name : Bytes
  modes : Bytes
  params : List Bytes
deriving DecidableEq, Repr

/-- The mode bit of a letter. -/
def sjoinBit (c : UInt8) : UInt32 :=
  match c.toNat with
  | 105 => modeInviteonly -- i
  | 110 => modeNoprivmsgs -- n
  | 112 => modePrivate    -- p
  | 115 => modeSecret     -- s
  | 109 => modeModerated  -- m
  | 116 => modeTopiclimit -- t
  | 114 => modeRegonly    -- r
  | 83 => modeSslonly     -- S
  | _ => 0

/-- The mode letters: the modes and how many parameters they took.  None when
    there is no parameter left for the users. -/
def sjoinModes (params : List Bytes) : Bytes → Mode → Nat → Option (Mode × Nat)
  | [], mode, args => some (mode, args)
  | c :: s, mode, args =>
    if c = 107 then -- k
      if params.length < args + 2 then none
      else sjoinModes params s { mode with key := strlcpy (params.getD args []) keyLen } (args + 1)
    else if c = 108 then -- l
      if params.length < args + 2 then none
      else sjoinModes params s { mode with limit := atoi (params.getD args []) } (args + 1)
    else sjoinModes params s { mode with mode := mode.mode ||| sjoinBit c } args

/-- The users of an `SJOIN`, split at each space; what follows a last space is
    no user. -/
def sjoinUsers (acc : Bytes) : Bytes → List Bytes
  | [] => [acc]
  | c :: s =>
    if c = 32 then if s = [] then [acc] else acc :: sjoinUsers [] s
    else sjoinUsers (acc ++ [c]) s

/-- Up to so many status characters in front of a user. -/
def statusPrefix : Nat → UInt8 → Bytes → UInt8 × Bytes
  | 0, fl, s => (fl, s)
  | n + 1, fl, s =>
    match s with
    | [] => (fl, [])
    | c :: r =>
      if c = 64 then statusPrefix n (fl ||| chflChanop) r
      else if c = 37 then statusPrefix n (fl ||| chflHalfop) r
      else if c = 43 then statusPrefix n (fl ||| chflVoice) r
      else statusPrefix n fl s

/-- The user an entry names, with its status, if it is behind the link. -/
def sjoinTarget (srv : Server) (link : Nat) (s : Bytes) : Option (Nat × UInt8) :=
  let (fl, nick) := statusPrefix 3 0 s
  match findClient srv nick with
  | none => none
  | some (c, target) => if target.link = link ∧ target.isClient then some (c, fl) else none

/-- The status that is kept: users of a side that lost its modes are deopped. -/
def sjoinStatus (keepNewModes : Bool) (fl : UInt8) : UInt8 :=
  if keepNewModes then fl
  else if fl &&& (chflChanop ||| chflHalfop) ≠ 0 then chflDeopped
  else 0

/-- One user: the channel and the number of joins so far. -/
def sjoinUser (srv : Server) (link : Nat) (keepNewModes : Bool) (st : Channel × Nat) (s : Bytes) :
    Channel × Nat :=
  match sjoinTarget srv link s with
  | none => st
  | some (c, fl) =>
    if st.1.isMember c then st
    else (addUserToChannel st.1 c (sjoinStatus keepNewModes fl), st.2 + 1)

/-- The least upper bound of two modes. -/
def Mode.join (a b : Mode) : Mode :=
  ⟨a.mode ||| b.mode, if b.limit > a.limit then b.limit else a.limit, strMax a.key b.key⟩

/-- The modes after the time stamps were compared. -/
def sjoinMode (t : TsOutcome) (mode oldmode : Mode) : Mode :=
  if !t.keepNewModes then oldmode
  else if t.keepOurModes then mode.join oldmode
  else mode

/-- Remove all bans, exceptions and invexes. -/
def removeBanLists (ch : Channel) : Channel :=
  { ch with banlist := [], exceptlist := [], invexlist := [] }.bump
    (.reset (!ch.banlist.isEmpty || !ch.exceptlist.isEmpty))

/-- What an `SJOIN` does to the channel: the modes, then the users, then the
    lists.  Without a join the lists stay. -/
def sjoinChannel (srv : Server) (m : Sjoin) (isnew : Bool) (newts : Int) (mode : Mode)
    (users : Bytes) (ch : Channel) : Channel × Nat :=
  let t := tsCompare isnew ch.channelts newts
  let mode := sjoinMode t mode ch.mode
  let ch := { ch with channelts := t.ts }
  let ch := if t.keepOurModes then ch else removeOurModes ch
  let ch := { ch with mode := mode }
  let st := (sjoinUsers [] users).foldl (sjoinUser srv m.link t.keepNewModes) (ch, 0)
  if st.2 = 0 then st
  else if !t.keepOurModes && m.sourceId != [] then (removeBanLists st.1, st.2)
  else st

/-- The modes of an `SJOIN` and its users without leading spaces, when it gets as
    far as looking for the channel. -/
def sjoinParse (m : Sjoin) : Option (Mode × Bytes) :=
  if m.params.headD [] = [] then none
  else if !isChannelName m.name || !checkChannelName m.name || m.name.head? == some 38 then none
  else
    match sjoinModes m.params m.modes Mode.none 0 with
    | none => none
    | some (mode, args) =>
      let users := (m.params.getD args []).dropWhile (· == 32)
      if users = [] then none else some (mode, users)

/-- `ms_sjoin`: a new channel that nobody joined is destroyed. -/
def msSjoin (srv : Server) (m : Sjoin) (now : Int) : Server :=
  match sjoinParse m with
  | none => srv
  | some (mode, users) =>
    match getOrCreateChannel srv.table m.name now with
    | (_, none) => srv
    | (t, some (p, isnew)) =>
      let st := sjoinChannel srv m isnew (atol m.ts) mode users (t.chan p)
      let t := t.setChan p st.1
      { srv with table := if st.2 = 0 ∧ isnew = true then destroyChannel t p else t }

-- ============================================================================
-- Leaving
-- ============================================================================

/-- `remove_user_from_channel`: the last one to leave destroys the channel. -/
def removeUserFromChannel (t : Table) (p c : Nat) : Table :=
  let ch := { t.chan p with members := (t.chan p).members.filter fun m => m.clientP != c }
  if ch.members = [] then destroyChannel (t.setChan p ch) p else t.setChan p ch

/-- `remove_user_from_channels`, and the loop of `do_join_0`. -/
def removeUserFromChannels (t : Table) (c : Nat) : Table :=
  (t.globalChannelList.filter fun p => (t.chan p).isMember c).foldl
    (fun t p => removeUserFromChannel t p c) t

end Bluebox.Chan
