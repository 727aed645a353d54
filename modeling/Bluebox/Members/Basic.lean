/-
  Bluebox.Members.Basic

  The lists that tie channels and clients together: the members of a channel, those of them
  that are local, the channels of a user, the list of all channels, and invitations, which the
  channel and the client both have (`libratboxcore/channel.c`, `modules/core/m_join.c`,
  `modules/m_invite.c`).

  The lists are in memory, as `rb_dlinkAdd` and `rb_dlinkDelete` leave them.  A field of a
  structure is a function of its address here, and what is freed is not used again; memory that
  was never used is zero.  A loop is bounded by the number of addresses in use.

  What decides whether a command gets as far as these lists, and what it does to modes and
  status, is as in `Channel.Join`.
-/
import Bluebox.Lib.Dlink
import Bluebox.Lib.Reach
import Bluebox.Channel.Join

namespace Bluebox.Members

open Bluebox.Lib
open Bluebox.Chan (Client Config Mode Server Table Sjoin Ban chflChanop chflHalfop chflVoice modeInviteonly
  modeNoprivmsgs modeTopiclimit modeRegonly modeSslonly isBanned allocateChannel lookupName locChannelLen
  checkChannelName isChannelName findClient findNamedClient tsCompare sjoinMode sjoinParse sjoinUsers
  sjoinTarget sjoinStatus)

-- ============================================================================
-- Data
-- ============================================================================

/-- `struct membership`, without its nodes. -/
structure Membership where
  chptr : Nat
  clientP : Nat
  flags : UInt8

/-- The nodes of one kind, by the address of what they are a field of. -/
abbrev Nodes := Nat → DlinkNode Nat Nat

/-- The lists of one kind, by the address of their owner. -/
abbrev Lists := Nat → DlinkList Nat

/-- Memory.  Addresses from `next` on are not in use.  `chan` has the name, the modes and the
    bans of a channel; its members are in `members` and `locmembers`.  `channel` is
    `user->channel`, and `inviteNode` and `invitedNode` are the nodes that are made for
    `chptr->invites` and `localClient->invited`.  The hash table only narrows a search, and is
    one list here. -/
structure World where
  next : Nat
  clients : List (Nat × Client)
  servptr : Nat → Nat
  membership : Nat → Membership
  usernode : Nodes
  channode : Nodes
  locchannode : Nodes
  chan : Nat → Chan.Channel
  node : Nodes
  members : Lists
  locmembers : Lists
  channel : Lists
  invites : Lists
  invited : Lists
  inviteNode : Nodes
  invitedNode : Nodes
  globalChannelList : DlinkList Nat
  channelTable : List Nat

/-- `me`. -/
def me : Nat := 0

/-- There are no channels, and no clients but `me`. -/
def World.start : World where
  next := me + 1
  clients := []
  servptr := fun _ => me
  membership := fun _ => ⟨0, 0, 0⟩
  usernode := fun _ => ⟨0, none, none⟩
  channode := fun _ => ⟨0, none, none⟩
  locchannode := fun _ => ⟨0, none, none⟩
  chan := fun _ => allocateChannel [] 0
  node := fun _ => ⟨0, none, none⟩
  members := fun _ => DlinkList.empty
  locmembers := fun _ => DlinkList.empty
  channel := fun _ => DlinkList.empty
  invites := fun _ => DlinkList.empty
  invited := fun _ => DlinkList.empty
  inviteNode := fun _ => ⟨0, none, none⟩
  invitedNode := fun _ => ⟨0, none, none⟩
  globalChannelList := DlinkList.empty
  channelTable := []

/-- The clients, where one is looked up. -/
def World.server (w : World) : Server := ⟨Table.start, w.clients, w.next⟩

/-- The client at an address. -/
def World.client (w : World) (c : Nat) : Option Client := w.server.client c

/-- `MyClient`. -/
def World.myClient (w : World) (c : Nat) : Bool := (w.client c).any (·.myClient)

/-- `IsClient`. -/
def World.isClient (w : World) (c : Nat) : Bool := (w.client c).any (·.isClient)

/-- The settings that are read. -/
structure Settings extends Config where
  maxChansPerUser : Int
  inviteOpsOnly : Bool

-- ============================================================================
-- Members
-- ============================================================================

/-- `find_channel_membership`: the shorter list is searched. -/
def findChannelMembership (w : World) (chptr clientP : Nat) : Option (Option Nat) :=
  if !w.isClient clientP then some none
  else if (w.members chptr).length < (w.channel clientP).length then
    (DlinkList.search w.channode (fun ptr => (w.membership (w.channode ptr).data).clientP == clientP) w.next
      (w.members chptr).head).map fun ptr => ptr.map fun ptr => (w.channode ptr).data
  else
    (DlinkList.search w.usernode (fun ptr => (w.membership (w.usernode ptr).data).chptr == chptr) w.next
      (w.channel clientP).head).map fun ptr => ptr.map fun ptr => (w.usernode ptr).data

/-- `add_user_to_channel`. -/
def addUserToChannel (w : World) (chptr clientP : Nat) (flags : UInt8) : World :=
  let msptr := w.next
  let user := (w.channel clientP).add w.usernode msptr msptr
  let chan := (w.members chptr).add w.channode msptr msptr
  let w' := { w with
    next := w.next + 1
    membership := Function.update w.membership msptr ⟨chptr, clientP, flags⟩
    usernode := user.1
    channel := Function.update w.channel clientP user.2
    channode := chan.1
    members := Function.update w.members chptr chan.2 }
  if w.myClient clientP then
    let loc := (w.locmembers chptr).add w.locchannode msptr msptr
    { w' with
      locchannode := loc.1
      locmembers := Function.update w.locmembers chptr loc.2 }
  else w'

/-- `del_invite`. -/
def delInvite (w : World) (chptr who : Nat) : Option World :=
  ((w.invites chptr).findDelete w.inviteNode w.next who).bind fun r =>
    ((w.invited who).findDelete w.invitedNode w.next chptr).map fun r' =>
      { w with
        inviteNode := r.1
        invites := Function.update w.invites chptr r.2
        invitedNode := r'.1
        invited := Function.update w.invited who r'.2 }

/-- `destroy_channel`. -/
def destroyChannel (w : World) (chptr : Nat) : Option World :=
  (DlinkList.foreachSafe (fun w ptr => (w.inviteNode ptr).next)
    (fun ptr w => delInvite w chptr (w.inviteNode ptr).data) w.next (w.invites chptr).head w).map fun w =>
    let r := w.globalChannelList.delete w.node chptr
    { w with
      chan := Function.update w.chan chptr { w.chan chptr with banlist := [], exceptlist := [], invexlist := [] }
      node := r.1
      globalChannelList := r.2
      channelTable := w.channelTable.erase chptr }

/-- What `remove_user_from_channel` and the loop of `remove_user_from_channels` both do with a
    membership of a client. -/
def leaveChannel (w : World) (clientP msptr : Nat) : Option World :=
  let chptr := (w.membership msptr).chptr
  let chan := (w.members chptr).delete w.channode msptr
  let w : World := { w with channode := chan.1, members := Function.update w.members chptr chan.2 }
  let w : World :=
    if w.servptr clientP = me then
      let loc := (w.locmembers chptr).delete w.locchannode msptr
      { w with locchannode := loc.1, locmembers := Function.update w.locmembers chptr loc.2 }
    else w
  if (w.members chptr).length ≤ 0 then destroyChannel w chptr else some w

/-- `remove_user_from_channel`. -/
def removeUserFromChannel (w : World) (msptr : Nat) : Option World :=
  let clientP := (w.membership msptr).clientP
  let user := (w.channel clientP).delete w.usernode msptr
  leaveChannel { w with usernode := user.1, channel := Function.update w.channel clientP user.2 } clientP msptr

/-- `remove_user_from_channels`: the list of the user is set to zero at the end. -/
def removeUserFromChannels (w : World) (clientP : Nat) : Option World :=
  (DlinkList.foreachSafe (fun w ptr => (w.usernode ptr).next)
    (fun ptr w => leaveChannel w clientP (w.usernode ptr).data) w.next (w.channel clientP).head w).map fun w =>
    { w with channel := Function.update w.channel clientP DlinkList.empty }

/-- The loop of `do_join_0`. -/
def doJoin0 (w : World) (sourceP : Nat) : Option World :=
  DlinkList.whileHead (fun w => (w.channel sourceP).head)
    (fun ptr w => removeUserFromChannel w (w.usernode ptr).data) w.next w

-- ============================================================================
-- Channels
-- ============================================================================

/-- The channel of a name, in the hash table. -/
def World.lookup (w : World) (s : Bytes) : Option Nat :=
  w.channelTable.find? fun chptr => irccmp s (w.chan chptr).chname == 0

/-- `find_channel`. -/
def findChannel (w : World) (name : Bytes) : Option Nat := if name = [] then none else w.lookup name

/-- `get_or_create_channel`: the channel, and whether it is new; no result for NULL. -/
def getOrCreateChannel (w : World) (chname : Bytes) (now : Int) : Option (World × Nat × Bool) :=
  if chname = [] then none
  else
    match w.lookup (lookupName chname) with
    | some chptr => some (w, chptr, false)
    | none =>
      let chptr := w.next
      let r := w.globalChannelList.add w.node chptr chptr
      some ({ w with
        next := w.next + 1
        chan := Function.update w.chan chptr (allocateChannel (lookupName chname) now)
        node := r.1
        globalChannelList := r.2
        channelTable := chptr :: w.channelTable }, chptr, true)

/-- `remove_our_modes`: no member keeps a status.  The body does not change the list. -/
def removeOurModes (w : World) (chptr : Nat) : Option World :=
  DlinkList.foreachSafe (fun w ptr => (w.channode ptr).next)
    (fun ptr w =>
      let msptr := (w.channode ptr).data
      let m := w.membership msptr
      let m := { m with flags := m.flags &&& ~~~(chflChanop ||| chflHalfop ||| chflVoice) }
      some { w with membership := Function.update w.membership msptr m })
    w.next (w.members chptr).head w

-- ============================================================================
-- JOIN
-- ============================================================================

/-- `can_join`, true where it returns 0. -/
def canJoin (cfg : Settings) (w : World) (sourceP : Nat) (source : Client) (chptr : Nat) (key : Bytes) :
    Option Bool :=
  (DlinkList.search w.invitedNode (fun lp => (w.invitedNode lp).data == chptr) w.next (w.invited sourceP).head).map
    fun lp =>
      let ch := w.chan chptr
      isBanned cfg.toConfig ch source != .banned
        && (ch.mode.mode &&& modeInviteonly == 0 || lp.isSome
          || (cfg.useInvex && ch.invexlist.any (·.covers cfg.toConfig source)))
        && (ch.mode.key == [] || (key != [] && irccmp ch.mode.key key == 0))
        && (ch.mode.limit == 0 || (w.members chptr).length < ch.mode.limit % 18446744073709551616)
        && (ch.mode.mode &&& modeRegonly == 0 || source.suser != [])
        && !(cfg.useSslonly && ch.mode.mode &&& modeSslonly != 0 && !source.ssl)

/-- The names that the first loop of `m_join` lets through.  `allowed` is what fake characters,
    reserved names and the split mode allow. -/
def joinNames (allowed : Bytes → Bool) : Bool → List Bytes → List Bytes
  | _, [] => []
  | first, name :: names =>
    if !checkChannelName name || name.length > locChannelLen then joinNames allowed false names
    else if name = [48] && first then name :: joinNames allowed false names
    else if !isChannelName name || !allowed name then joinNames allowed false names
    else name :: joinNames allowed false names

/-- Whether a local user is in as many channels as it may be in. -/
def tooManyChannels (cfg : Settings) (w : World) (sourceP : Nat) (source : Client) : Bool :=
  let max := cfg.maxChansPerUser % 18446744073709551616
  max ≤ (w.channel sourceP).length && (!source.oper || max * 3 % 18446744073709551616 ≤ (w.channel sourceP).length)

/-- The end of a turn of `m_join`, from `can_join` on. -/
def enterChannel (cfg : Settings) (w : World) (sourceP : Nat) (source : Client) (chptr : Nat) (flags : UInt8)
    (key : Bytes) (now : Int) : Option World :=
  (canJoin cfg w sourceP source chptr key).bind fun ok =>
    if !ok then some w
    else
      let w := addUserToChannel w chptr sourceP flags
      let mode := { (w.chan chptr).mode with
        mode := (w.chan chptr).mode.mode ||| modeTopiclimit ||| modeNoprivmsgs }
      let ch :=
        if flags &&& chflChanop != 0 then { w.chan chptr with channelts := now, mode := mode } else w.chan chptr
      delInvite { w with chan := Function.update w.chan chptr ch } chptr sourceP

/-- A turn of the second loop of `m_join`, and whether there is a next one.  `creatable` is what
    the split mode lets the user create. -/
def joinName (cfg : Settings) (w : World) (sourceP : Nat) (source : Client) (creatable : Bytes → Bool)
    (name key : Bytes) (now : Int) : Option (World × Bool) :=
  if name = [48] then (doJoin0 w sourceP).map fun w => (w, true)
  else
    match findChannel w name with
    | some chptr =>
      (findChannelMembership w chptr sourceP).bind fun msptr =>
        if msptr.isSome then some (w, true)
        else if tooManyChannels cfg w sourceP source then some (w, false)
        else
          let flags := if (w.members chptr).length = 0 then chflChanop else 0
          (enterChannel cfg w sourceP source chptr flags key now).map fun w => (w, true)
    | none =>
      if !creatable name then some (w, true)
      else if tooManyChannels cfg w sourceP source then some (w, false)
      else
        match getOrCreateChannel w name now with
        | none => some (w, true)
        | some (w, chptr, _) =>
          (enterChannel cfg w sourceP source chptr chflChanop key now).map fun w => (w, true)

/-- The second loop of `m_join`. -/
def joinLoop (cfg : Settings) (sourceP : Nat) (source : Client) (creatable : Bytes → Bool) (now : Int) :
    List Bytes → List Bytes → World → Option World
  | [], _, w => some w
  | name :: names, keys, w =>
    (joinName cfg w sourceP source creatable name (keys.headD []) now).bind fun r =>
      if r.2 then joinLoop cfg sourceP source creatable now names keys.tail r.1 else some r.1

/-- The tokens of a list with commas. -/
def tokens (s : Bytes) : List Bytes := (s.splitOn 44).filter (· ≠ [])

/-- `m_join`. -/
def mJoin (cfg : Settings) (w : World) (sourceP : Nat) (source : Client) (allowed creatable : Bytes → Bool)
    (chanlist keys : Bytes) (now : Int) : Option World :=
  joinLoop cfg sourceP source creatable now
    (joinNames allowed (chanlist.head? != some 44) (tokens chanlist)) (tokens keys) w

/-- `ms_join`, for other than `JOIN 0`, and `mc_sjoin`, which differs in what it sends. -/
def msJoin (w : World) (sourceP : Nat) (ts name : Bytes) (now : Int) : Option World :=
  if !isChannelName name || !checkChannelName name || name.head? == some 38 then some w
  else
    match getOrCreateChannel w name now with
    | none => some w
    | some (w, chptr, isnew) =>
      let t := tsCompare isnew (w.chan chptr).channelts (atol ts)
      let w := { w with chan := Function.update w.chan chptr { w.chan chptr with channelts := t.ts } }
      (if t.keepOurModes then some w
        else (removeOurModes w chptr).map fun w =>
          { w with chan := Function.update w.chan chptr { w.chan chptr with mode := Mode.none } }).bind fun w =>
        (findChannelMembership w chptr sourceP).map fun msptr =>
          if msptr.isSome then w else addUserToChannel w chptr sourceP 0

-- ============================================================================
-- SJOIN
-- ============================================================================

/-- One user of an `SJOIN`, with the number of joins. -/
def sjoinUser (link chptr : Nat) (keepNewModes : Bool) (st : World × Nat) (s : Bytes) : Option (World × Nat) :=
  match sjoinTarget st.1.server link s with
  | none => some st
  | some (targetP, fl) =>
    (findChannelMembership st.1 chptr targetP).map fun msptr =>
      if msptr.isSome then st
      else (addUserToChannel st.1 chptr targetP (sjoinStatus keepNewModes fl), st.2 + 1)

/-- `ms_sjoin`. -/
def msSjoin (w : World) (m : Sjoin) (now : Int) : Option World :=
  match sjoinParse m with
  | none => some w
  | some (mode, users) =>
    match getOrCreateChannel w m.name now with
    | none => some w
    | some (w, chptr, isnew) =>
      let t := tsCompare isnew (w.chan chptr).channelts (atol m.ts)
      let mode := sjoinMode t mode (w.chan chptr).mode
      let w := { w with chan := Function.update w.chan chptr { w.chan chptr with channelts := t.ts } }
      (if t.keepOurModes then some w else removeOurModes w chptr).bind fun w =>
        let w := { w with chan := Function.update w.chan chptr { w.chan chptr with mode := mode } }
        ((sjoinUsers [] users).foldlM (sjoinUser m.link chptr t.keepNewModes) (w, 0)).bind fun st =>
          let w := st.1
          if st.2 = 0 then if isnew then destroyChannel w chptr else some w
          else if !t.keepOurModes && m.sourceId != [] then
            some { w with chan := Function.update w.chan chptr (Chan.removeBanLists (w.chan chptr)) }
          else some w

-- ============================================================================
-- INVITE
-- ============================================================================

/-- `add_invite`; the tail of an empty list is NULL. -/
def addInvite (cfg : Settings) (w : World) (chptr who : Nat) : Option World :=
  (DlinkList.search w.invitedNode (fun ptr => (w.invitedNode ptr).data == chptr) w.next (w.invited who).head).bind
    fun ptr =>
      if ptr.isSome then some w
      else
        (if cfg.maxChansPerUser ≤ (w.invited who).length then
          (w.invited who).tail.bind fun ptr => delInvite w (w.invitedNode ptr).data who
        else some w).map fun w =>
          let r := (w.invites chptr).add w.inviteNode who w.next
          let r' := (w.invited who).add w.invitedNode chptr (w.next + 1)
          { w with
            next := w.next + 2
            inviteNode := r.1
            invites := Function.update w.invites chptr r.2
            invitedNode := r'.1
            invited := Function.update w.invited who r'.2 }

/-- `m_invite`. -/
def mInvite (cfg : Settings) (w : World) (sourceP : Nat) (source : Client) (user name : Bytes) : Option World :=
  let target := (if source.myClient then findNamedClient w.server user else findClient w.server user).filter
    fun x => x.2.isClient
  match target with
  | none => some w
  | some (targetP, target) =>
    if !checkChannelName name || !isChannelName name then some w
    else if name.head? == some 38 && !target.myConnect then some w
    else
      match findChannel w name with
      | none => some w
      | some chptr =>
        (findChannelMembership w chptr sourceP).bind fun msptr =>
          if source.myClient && msptr.isNone then some w
          else
            (findChannelMembership w chptr targetP).bind fun there =>
              if there.isSome then some w
              else
                let inviteonly := (w.chan chptr).mode.mode &&& modeInviteonly != 0
                let chanop := msptr.any fun m => (w.membership m).flags &&& chflChanop != 0
                if (cfg.inviteOpsOnly || inviteonly) && source.myClient && !chanop then some w
                else if target.myConnect && inviteonly then addInvite cfg w chptr targetP
                else some w

-- ============================================================================
-- Clients
-- ============================================================================

/-- A new client. -/
def addClient (w : World) (cl : Client) (servptr : Nat) : World :=
  { w with
    next := w.next + 1
    clients := (w.next, cl) :: w.clients
    servptr := Function.update w.servptr w.next servptr }

/-- `register_local_user`: the user is behind its own connection. -/
def registerLocalUser (w : World) (cl : Client) : World :=
  addClient w { cl with isServer := false, myConnect := true, link := w.next } me

/-- A client is not found any more. -/
def World.forget (w : World) (c : Nat) : World := { w with clients := w.clients.filter fun x => x.1 != c }

/-- `exit_client`, for a local user, another user, or a server without users. -/
def exitClient (w : World) (c : Nat) (cl : Client) : Option World :=
  (if cl.isServer then some w
    else
      (removeUserFromChannels w c).bind fun w =>
        if cl.myConnect then
          DlinkList.foreachSafe (fun w ptr => (w.invitedNode ptr).next)
            (fun ptr w => delInvite w (w.invitedNode ptr).data c) w.next (w.invited c).head w
        else some w).map fun w => w.forget c

/-- The connection that a server is behind. -/
def World.linkOf (w : World) (server : Nat) : Nat := if server = me then me else ((w.client server).map (·.link)).getD me

/-- The end of `register_client`: a user of a server that is not behind the connection exits
    again. -/
def registerClient (w : World) (link server : Nat) (cl : Client) : Option World :=
  let cl := { cl with isServer := false, myConnect := false, link := link }
  let source := w.next
  let w := addClient w cl server
  if w.linkOf server ≠ link then exitClient w source cl else some w

-- ============================================================================
-- Steps
-- ============================================================================

/-- What comes in: users that register, servers and their users, and the commands. -/
inductive Action
  | register (cl : Client)
  | connect (cl : Client)
  | server (uplink : Nat) (cl : Client)
  | introduce (link server : Nat) (cl : Client)
  | exit (c : Nat)
  | join (c : Nat) (allowed creatable : Bytes → Bool) (chanlist keys : Bytes) (now : Int)
  | joinZero (c : Nat)
  | remoteJoin (c : Nat) (ts name : Bytes) (now : Int)
  | sjoin (m : Sjoin) (now : Int)
  | invite (c : Nat) (user name : Bytes)

/-- A server that is connected to this one. -/
def World.isLink (w : World) (c : Nat) : Bool := (w.client c).any fun cl => cl.isServer && cl.myConnect

/-- `me` or another server. -/
def World.isServer (w : World) (c : Nat) : Bool := c = me || (w.client c).any (·.isServer)

/-- Whether something can come in: it comes from a client that is there, and the users and servers
    behind a server exit before it does. -/
def World.canHappen (w : World) : Action → Bool
  | .register _ | .connect _ => true
  | .server uplink _ => (w.client uplink).any (·.isServer)
  | .introduce link server _ => w.isLink link && w.isServer server
  | .exit c => (w.client c).any fun cl => !(cl.isServer && w.clients.any fun x => w.servptr x.1 == c)
  | .join c _ _ _ _ _ => w.myClient c
  | .joinZero c | .remoteJoin c _ _ _ => w.isClient c && !w.myClient c
  | .sjoin m _ => w.isLink m.link
  | .invite c _ _ => w.isClient c

/-- What the server does then; none when it crashes. -/
def World.act (w : World) : Settings × Action → Option World
  | (_, .register cl) => some (registerLocalUser w cl)
  | (_, .connect cl) => some (addClient w { cl with isServer := true, myConnect := true, link := w.next } me)
  | (_, .server uplink cl) =>
    some (addClient w { cl with isServer := true, myConnect := false, link := w.linkOf uplink } uplink)
  | (_, .introduce link server cl) => registerClient w link server cl
  | (_, .exit c) => (w.client c).bind (exitClient w c)
  | (cfg, .join c allowed creatable chanlist keys now) =>
    (w.client c).bind fun cl => mJoin cfg w c cl allowed creatable chanlist keys now
  | (_, .joinZero c) => doJoin0 w c
  | (_, .remoteJoin c ts name now) => msJoin w c ts name now
  | (_, .sjoin m now) => msSjoin w m now
  | (cfg, .invite c user name) => (w.client c).bind fun cl => mInvite cfg w c cl user name

/-- Take a step. -/
def World.step (w : World) (a : Settings × Action) : Option World := if w.canHappen a.2 then w.act a else none

end Bluebox.Members
