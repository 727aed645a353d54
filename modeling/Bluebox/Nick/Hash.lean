/-
  Bluebox.Nick.Hash

  The two hash tables that nicks and IDs are found in, on one server, and what
  `modules/core/m_nick.c` does to them: `NICK` from a connection that has not
  registered, from a local user, from a remote user and from a server, `UID`, `SAVE`,
  collisions, and exits.

  A client is known by its address.  `find_client` looks a name up among the names,
  unless it begins with a digit: then it is looked up among the IDs.
-/
import Mathlib.Logic.Function.Basic
import Bluebox.Lib.Reach
import Bluebox.Nick.Uid

namespace Bluebox.NickHash

open Bluebox.Lib
open Bluebox.Nick (cleanNick cleanUsername cleanHost cleanUid nickArg saveNickTs Sid
  initUid generateUid)

-- ============================================================================
-- Data
-- ============================================================================

/-- The status of a client. -/
inductive Kind
  | unknown
  | client
  | server
  | me
deriving DecidableEq, Repr

/-- `struct Client`, of users and of servers.  `link` is `from`, and `capSave` the
    capability `CAP_SAVE` of a server. -/
structure Client where
  kind : Kind
  name : Bytes
  id : Bytes
  tsinfo : Int
  username : Bytes
  host : Bytes
  myConnect : Bool
  link : Nat
  servptr : Nat
  capSave : Bool
deriving DecidableEq, Repr

/-- The clients by their addresses, those from `next` on not in use; `clientTable` and
    `idTable` with what was added last in front; the connections that have not registered;
    and the buffer of `generate_uid`. -/
structure World where
  client : Nat → Client
  next : Nat
  clientTable : List Nat
  idTable : List Nat
  unknownList : List Nat
  currentUid : Bytes

/-- A server that is linked, directly or behind another. -/
structure Peer where
  name : Bytes
  sid : Bytes
  link : Nat
  uplink : Nat
  capSave : Bool

/-- A server name: it has a dot, and no NUL. -/
def IsServName (name : Bytes) : Prop := 46 ∈ name ∧ NoNul name

/-- The configuration, and the network as it stands. -/
structure Setup where
  sid : Sid
  name : Bytes
  collisionFnc : Bool
  peers : List Peer
  servName : ∀ n ∈ name :: peers.map Peer.name, IsServName n
  distinct : (name :: peers.map Peer.name).Pairwise fun m n => irccmp m n ≠ 0

/-- The server itself. -/
def Setup.me (k : Setup) : Client :=
  ⟨.me, k.name, k.sid.bytes, 0, [], [], false, 0, 0, false⟩

def Peer.client (p : Peer) (a : Nat) : Client :=
  ⟨.server, p.name, p.sid, 0, [], [], p.link == a, p.link, p.uplink, p.capSave⟩

/-- Before any user is there: the server itself has the address 0, its peers have the next
    ones. -/
def World.start (k : Setup) : World where
  client a :=
    match a with
    | 0 => k.me
    | a + 1 => (k.peers[a]?.map fun p => p.client (a + 1)).getD k.me
  next := k.peers.length + 1
  clientTable := List.range (k.peers.length + 1)
  idTable := List.range (k.peers.length + 1)
  unknownList := []
  currentUid := initUid k.sid

-- ============================================================================
-- hash.c
-- ============================================================================

/-- `find_id`. -/
def World.findId (w : World) (id : Bytes) : Option Nat :=
  if id = [] then none else w.idTable.find? fun a => (w.client a).id == id

/-- `find_client`. -/
def World.findClient (w : World) (name : Bytes) : Option Nat :=
  if name = [] then none
  else if isDigit (name.headD 0) then w.findId name
  else w.clientTable.find? fun a => irccmp name (w.client a).name == 0

def World.isServer (w : World) (a : Nat) : Bool :=
  (w.client a).kind == .server || (w.client a).kind == .me

/-- The masks of `hash_find_masked_server`: from every dot on, with a star before it. -/
def serverMasks : Bytes → List Bytes
  | [] => []
  | b :: s => if b = 46 then (42 :: b :: s) :: serverMasks s else serverMasks s

/-- The search of `find_server` in `clientTable`. -/
def World.findServName (w : World) (name : Bytes) : Option Nat :=
  w.clientTable.find? fun a => w.isServer a && irccmp name (w.client a).name == 0

/-- `find_server`, for a name that a server gave. -/
def World.findServer (w : World) (name : Bytes) : Option Nat :=
  if name = [] then none
  else if isDigit (name.headD 0) && name.length == 3 then w.findId name
  else (w.findServName name).or
    (if name.headD 0 = 42 ∨ name.headD 0 = 46 then none
    else (serverMasks (strlcpy name (hostLen + 1))).findSome? w.findServName)

/-- `del_from_hash`, the name written, `add_to_hash`. -/
def World.rename (w : World) (a : Nat) (nick : Bytes) (tsinfo : Int) : World :=
  { w with
    client := Function.update w.client a { w.client a with name := nick, tsinfo := tsinfo }
    clientTable := a :: w.clientTable.erase a }

/-- Some clients are taken out of the tables and lists. -/
def World.drop (w : World) (gone : Nat → Bool) : World :=
  { w with
    clientTable := w.clientTable.filter fun a => !gone a
    idTable := w.idTable.filter fun a => !gone a
    unknownList := w.unknownList.filter fun a => !gone a }

-- ============================================================================
-- client.c
-- ============================================================================

/-- Whether a client or server is server `s` or behind it; `servptr` is followed so many
    times at most. -/
def World.behind (w : World) (s : Nat) : Nat → Nat → Bool
  | 0, a => a == s
  | n + 1, a => a == s || w.behind s n (w.client a).servptr

/-- `exit_client`.  With a server goes what is behind it; nothing is done for the server
    itself. -/
def World.exitClient (w : World) (a : Nat) : World :=
  match (w.client a).kind with
  | .me => w
  | .server => w.drop fun b => w.behind a w.next b
  | .client => w.drop fun b => b == a
  | .unknown => w.drop fun b => b == a

/-- `make_client` for a new connection. -/
def World.accept (w : World) (username host : Bytes) : World :=
  { w with
    client := Function.update w.client w.next ⟨.unknown, [], [], 0, username, host, true, w.next, 0, false⟩
    next := w.next + 1
    unknownList := w.next :: w.unknownList }

/-- `register_local_user`, where it lets the user in: its ID comes from `generate_uid`. -/
def World.registerLocalUser (w : World) (a : Nat) : World :=
  let uid := generateUid w.currentUid
  { w with
    client := Function.update w.client a { w.client a with kind := .client, id := uid }
    idTable := a :: w.idTable
    unknownList := w.unknownList.erase a
    currentUid := uid }

-- ============================================================================
-- m_nick.c: taking a nick
-- ============================================================================

/-- `MyClient`. -/
def World.myClient (w : World) (a : Nat) : Bool := (w.client a).myConnect && (w.client a).kind == .client

/-- `set_initial_nick`. -/
def World.setInitialNick (w : World) (a : Nat) (nick : Bytes) (now : Int) : World := w.rename a nick now

/-- `change_local_nick`, once it is not too fast. -/
def World.changeLocalNick (w : World) (a : Nat) (nick : Bytes) (now : Int) : World :=
  w.rename a nick
    (if irccmp (w.client a).name nick = 0 then (w.client a).tsinfo
    else if now ≤ (w.client a).tsinfo then (w.client a).tsinfo + 1
    else now)

/-- `change_remote_nick`. -/
def World.changeRemoteNick (w : World) (a : Nat) (newts : Int) (nick : Bytes) (now : Int) : World :=
  w.rename a nick
    (if irccmp (w.client a).name nick = 0 then (w.client a).tsinfo
    else if newts ≠ 0 then newts
    else now)

/-- How a user is introduced: by `UID` with its ID, or by `NICK` with the name of its
    server. -/
inductive Origin
  | uid (id : Bytes)
  | server (name : Bytes)
deriving DecidableEq, Repr

/-- What a server says of a user that it introduces. -/
structure Intro where
  nick : Bytes
  ts : Int
  username : Bytes
  host : Bytes
  origin : Origin
deriving DecidableEq, Repr

/-- The UID of a user that has one. -/
def Intro.uid (i : Intro) : Option Bytes :=
  match i.origin with
  | .uid id => some id
  | .server _ => none

/-- The end of `register_client`, where the server is known.  A user from the wrong direction
    is exited at once. -/
def World.addClient (w : World) (link server : Nat) (i : Intro) (nick : Bytes) (newts : Int) : World :=
  let id := (i.uid.map fun id => strlcpy id idLen).getD []
  let c : Client := ⟨.client, nick, id, newts, strlcpy i.username (userLen + 1),
    strlcpy i.host (hostLen + 1), false, link, server, false⟩
  let w' : World :=
    { w with
      client := Function.update w.client w.next c
      next := w.next + 1
      clientTable := w.next :: w.clientTable
      idTable := if i.uid.isSome then w.next :: w.idTable else w.idTable }
  if (w.client server).link ≠ link then w'.exitClient w.next else w'

/-- `register_client`.  A user with a UID is on the server that introduces it. -/
def World.registerClient (w : World) (link source : Nat) (i : Intro) (nick : Bytes) (newts : Int) : World :=
  match i.origin with
  | .uid _ => w.addClient link source i nick newts
  | .server name =>
    match w.findServer name with
    | none => w
    | some server => w.addClient link server i nick newts

-- ============================================================================
-- m_nick.c: collisions
-- ============================================================================

/-- The loop of `can_save`: every server on the way to this one. -/
def World.savePath (w : World) : Nat → Nat → Bool
  | _, 0 => true
  | 0, _ + 1 => false
  | n + 1, s + 1 => (w.client (s + 1)).capSave && w.savePath n (w.client (s + 1)).servptr

/-- `can_save`. -/
def World.canSave (w : World) (a : Nat) : Bool :=
  if w.myClient a then true
  else if (w.client a).id = [] then false
  else w.savePath w.next (if (w.client a).kind = .server then a else (w.client a).servptr)

/-- `save_user`. -/
def World.saveUser (w : World) (a : Nat) (now : Int) : World :=
  if !(w.client a).myConnect && ((w.client a).id == [] || !(w.client (w.client a).link).capSave) then
    w.exitClient a
  else if w.myClient a then
    let w' := w.changeLocalNick a (w.client a).id now
    { w' with client := Function.update w'.client a { w'.client a with tsinfo := saveNickTs } }
  else w.changeRemoteNick a saveNickTs (w.client a).id now

/-- Whether the incoming claim with `newts` loses. -/
def newLoses (sameuser : Bool) (newts tsinfo : Int) : Bool :=
  (sameuser && newts < tsinfo) || (!sameuser && newts > tsinfo)

/-- `target_p` is saved or killed. -/
def World.putAside (w : World) (useSave : Bool) (target : Nat) (now : Int) : World :=
  if useSave then w.saveUser target now else w.exitClient target

/-- `perform_nick_collides`. -/
def World.performNickCollides (k : Setup) (w : World) (source target : Nat) (i : Intro) (now : Int) : World :=
  let useSave := k.collisionFnc && w.canSave target && i.uid.isSome && w.canSave source
  let link := (w.client source).link
  let uid := i.uid.getD []
  let t := w.client target
  if i.ts = 0 ∨ t.tsinfo = 0 ∨ i.ts = t.tsinfo then
    if useSave then (w.saveUser target now).registerClient link source i uid saveNickTs
    else w.exitClient target
  else
    let sameuser := !w.isServer target && irccmp t.username i.username == 0 && irccmp t.host i.host == 0
    if newLoses sameuser i.ts t.tsinfo then
      if useSave then w.registerClient link source i uid saveNickTs else w
    else (w.putAside useSave target now).registerClient link source i i.nick i.ts

/-- A user whose nick change collides loses: it gets its ID, or is killed. -/
def World.loseNick (w : World) (useSave : Bool) (source : Nat) (now : Int) : World :=
  if useSave then
    if isDigit ((w.client source).name.headD 0) then w
    else w.changeRemoteNick source saveNickTs (w.client source).id now
  else w.exitClient source

/-- `perform_nickchange_collides`. -/
def World.performNickchangeCollides (k : Setup) (w : World) (source target : Nat) (newts : Int) (nick : Bytes)
    (now : Int) : World :=
  let useSave := k.collisionFnc && w.canSave target && w.canSave source
  let t := w.client target
  let s := w.client source
  if newts = 0 ∨ t.tsinfo = 0 ∨ newts = t.tsinfo then
    (w.putAside useSave target now).loseNick useSave source now
  else
    let sameuser := irccmp t.username s.username == 0 && irccmp t.host s.host == 0
    if newLoses sameuser newts t.tsinfo then w.loseNick useSave source now
    else (w.putAside useSave target now).changeRemoteNick source newts nick now

-- ============================================================================
-- m_nick.c: commands
-- ============================================================================

/-- `mr_nick`; `denied` says whether `find_nick_resv` or `hash_find_nd` have the nick. -/
def World.mrNick (w : World) (source : Nat) (arg : Bytes) (denied : Bool) (now : Int) : World :=
  match nickArg arg with
  | none => w
  | some nick =>
    if denied then w
    else
      match w.findClient nick with
      | none => w.setInitialNick source nick now
      | some target =>
        if source = target then
          { w with client := Function.update w.client source { w.client source with name := nick } }
        else w

/-- `m_nick`; `tooFast` says whether `change_local_nick` counts too many changes. -/
def World.mNick (w : World) (source : Nat) (arg : Bytes) (denied tooFast : Bool) (now : Int) : World :=
  match nickArg arg with
  | none => w
  | some nick =>
    if denied then w
    else
      match w.findClient nick with
      | none => if tooFast then w else w.changeLocalNick source nick now
      | some target =>
        if target = source then
          if (w.client target).name ≠ nick then
            if tooFast then w else w.changeLocalNick source nick now
          else w
        else if (w.client target).kind = .unknown then
          if tooFast then w.exitClient target else (w.exitClient target).changeLocalNick source nick now
        else w

/-- `mc_nick`. -/
def World.mcNick (k : Setup) (w : World) (source : Nat) (nick : Bytes) (newts now : Int) : World :=
  if cleanNick nick false = false then w.exitClient source
  else
    match w.findClient nick with
    | none => w.changeRemoteNick source newts nick now
    | some target =>
      if (w.client target).kind = .unknown then
        (w.exitClient target).changeRemoteNick source newts nick now
      else if target = source then
        if (w.client target).name ≠ nick then w.changeRemoteNick source newts nick now else w
      else w.performNickchangeCollides k source target newts nick now

/-- `ms_nick`, with the right number of parameters. -/
def World.msNick (k : Setup) (w : World) (source : Nat) (i : Intro) (now : Int) : World :=
  let link := (w.client source).link
  if (cleanNick i.nick false && cleanUsername i.username && cleanHost i.host) = false then w
  else
    match w.findClient i.nick with
    | none => w.registerClient link source i i.nick i.ts
    | some target =>
      if (w.client target).kind = .unknown then
        (w.exitClient target).registerClient link source i i.nick i.ts
      else if target = source then
        if (w.client target).name ≠ i.nick then w.registerClient link source i i.nick i.ts else w
      else w.performNickCollides k source target i now

/-- `ms_uid`, with the right number of parameters. -/
def World.msUid (k : Setup) (w : World) (source : Nat) (i : Intro) (now : Int) : World :=
  let link := (w.client source).link
  if (cleanNick i.nick false && cleanUsername i.username && cleanHost i.host &&
      i.uid.all cleanUid) = false then w
  else
    match w.findClient i.nick with
    | none => w.registerClient link source i i.nick i.ts
    | some target =>
      if (w.client target).kind = .unknown then
        (w.exitClient target).registerClient link source i i.nick i.ts
      else w.performNickCollides k source target i now

/-- `ms_save`. -/
def World.msSave (w : World) (id : Bytes) (ts now : Int) : World :=
  match w.findId id with
  | none => w
  | some target =>
    if (w.client target).kind ≠ .client then w
    else if isDigit ((w.client target).name.headD 0) then w
    else if (w.client target).tsinfo = ts then w.saveUser target now
    else w

-- ============================================================================
-- Steps
-- ============================================================================

/-- What can happen: a connection, its registration once it has a nick and a user name, the
    commands, and exits. -/
inductive Op
  | accept (username host : Bytes)
  | register (source : Nat)
  | mrNick (source : Nat) (arg : Bytes) (denied : Bool) (now : Int)
  | mNick (source : Nat) (arg : Bytes) (denied tooFast : Bool) (now : Int)
  | mcNick (source : Nat) (nick : Bytes) (newts now : Int)
  | msNick (source : Nat) (nick : Bytes) (ts : Int) (username host server : Bytes) (now : Int)
  | msUid (source : Nat) (nick : Bytes) (ts : Int) (username host id : Bytes) (now : Int)
  | msSave (source : Nat) (id : Bytes) (ts now : Int)
  | exit (source : Nat)
deriving DecidableEq, Repr

/-- Whether a command can come from a client: a connection, a local user, a remote user or a
    server, as the handler wants it. -/
def World.sends (w : World) : Op → Bool
  | .accept _ _ => true
  | .register a => w.unknownList.contains a && (w.client a).kind == .unknown && w.clientTable.contains a
  | .mrNick a _ _ _ => w.unknownList.contains a && (w.client a).kind == .unknown
  | .mNick a _ _ _ _ => w.clientTable.contains a && (w.client a).kind == .client && (w.client a).myConnect
  | .mcNick a _ _ _ => w.clientTable.contains a && (w.client a).kind == .client && !(w.client a).myConnect
  | .msNick a _ _ _ _ _ _ => w.clientTable.contains a && (w.client a).kind == .server
  | .msUid a _ _ _ _ _ _ => w.clientTable.contains a && (w.client a).kind == .server
  | .msSave a _ _ _ => w.clientTable.contains a && (w.client a).kind == .server
  | .exit a => w.clientTable.contains a || w.unknownList.contains a

def World.perform (k : Setup) (w : World) : Op → World
  | .accept username host => w.accept username host
  | .register a => w.registerLocalUser a
  | .mrNick a arg denied now => w.mrNick a arg denied now
  | .mNick a arg denied tooFast now => w.mNick a arg denied tooFast now
  | .mcNick a nick newts now => w.mcNick k a nick newts now
  | .msNick a nick ts username host server now =>
    w.msNick k a ⟨nick, ts, username, host, .server server⟩ now
  | .msUid a nick ts username host id now => w.msUid k a ⟨nick, ts, username, host, .uid id⟩ now
  | .msSave _ id ts now => w.msSave id ts now
  | .exit a => w.exitClient a

def World.step (k : Setup) (w : World) (op : Op) : Option World :=
  if w.sends op then some (w.perform k op) else none

/-- No two clients in the hash table have the same nick. -/
def World.NicksUnique (w : World) : Prop :=
  ∀ a ∈ w.clientTable, ∀ b ∈ w.clientTable, irccmp (w.client a).name (w.client b).name = 0 → a = b

end Bluebox.NickHash
