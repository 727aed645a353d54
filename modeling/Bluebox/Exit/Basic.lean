/-
  Bluebox.Exit.Basic

  The life of a client, from `make_client` to `free_client`: `libratboxcore/client.c`,
  with what puts clients into the tree of servers (`register_local_user`, `server_estab`,
  `register_client` and `ms_server`) and the writes that fail (`libratboxcore/send.c`).

  A client is named by its address, and an address is never given out again, so that a
  use of memory that has been freed shows: a step that reads or writes a client that is
  gone has no result.  What is sent is left out, but not that each write can fail:
  `fails` are those whose writes fail while a step goes on.
-/
import Bluebox.Lib.Reach
import Mathlib.Logic.Function.Basic

namespace Bluebox.Exit

-- ============================================================================
-- Clients
-- ============================================================================

/-- `STAT_ME`, those below `STAT_SERVER` that have not registered, `STAT_SERVER` and
    `STAT_CLIENT`. -/
inductive Status
  | me
  | unknown
  | server
  | client
  deriving DecidableEq

/-- The fields of `struct Client` that the life of a client reads or writes.  `link` is `from`;
    `users` and `servers` are the lists of `serv`. -/
structure Client where
  status : Status
  myConnect : Bool
  link : Option Nat
  servptr : Option Nat
  users : List Nat
  servers : List Nat
  closing : Bool
  dead : Bool
  ioError : Bool

/-- `IsAnyDead`. -/
def Client.isAnyDead (c : Client) : Bool := c.ioError || c.dead || c.closing

/-- The clients that are allocated, the lists they are on, and the next address. -/
structure World where
  client : Nat → Option Client
  unknownList : List Nat
  lclientList : List Nat
  servList : List Nat
  globalServList : List Nat
  deadList : List Nat
  abortList : List Nat
  next : Nat

/-- `me`. -/
def me : Nat := 0

/-- A server that has just started. -/
def World.start : World where
  client := fun x => if x = me then some ⟨.me, false, some me, some me, [], [], false, false, false⟩ else none
  unknownList := []
  lclientList := []
  servList := []
  globalServList := [me]
  deadList := []
  abortList := []
  next := 1

/-- A client is changed. -/
def World.modify (w : World) (x : Nat) (f : Client → Client) : Option World :=
  (w.client x).map fun c => { w with client := Function.update w.client x (some (f c)) }

/-- A client that is in the hash tables, where those who are to act or to be acted on are found. -/
def World.found (w : World) (x : Nat) : Bool := (w.client x).isSome && x ∉ w.deadList && x ≠ me

-- ============================================================================
-- Writes
-- ============================================================================

/-- `dead_link`. -/
def deadLink (w : World) (x : Nat) : Option World :=
  (w.client x).bind fun c =>
    if c.dead || c.closing || c.status = .me then some w
    else (w.modify x fun c => { c with ioError := true, dead := true, closing := true }).map fun w =>
      { w with abortList := x :: w.abortList }

/-- `send_linebuf`, where the write fails or the queue is too long. -/
def sendLinebuf (w : World) (dest : Nat) : Option World :=
  (w.client dest).bind fun c => if c.status = .me ∨ !c.myConnect ∨ c.ioError then some w else deadLink w dest

/-- `sendto_one`: what is sent to a client goes to the link that it is behind. -/
def sendtoOne (w : World) (target : Nat) (fails : Bool) : Option World :=
  (w.client target).bind fun c =>
    let dest := c.link.getD target
    if fails then sendLinebuf w dest else (w.client dest).map fun _ => w

/-- The writes that fail. -/
def failWrites (w : World) (fails : List Nat) : Option World := (fails.filter w.found).foldlM sendLinebuf w

-- ============================================================================
-- Exits
-- ============================================================================

/-- `SetDead`, and the client is put on `dead_list`. -/
def bury (w : World) (x : Nat) : Option World :=
  (w.modify x fun c => { c with dead := true }).map fun w => { w with deadList := x :: w.deadList }

/-- `rb_dlinkDelete` from the users of `servptr`. -/
def unlinkUser (w : World) (x : Nat) : Option World :=
  (w.client x).bind fun c =>
    match c.servptr with
    | none => some w
    | some p => w.modify p fun d => { d with users := d.users.erase x }

/-- `rb_dlinkDelete` from the servers of `servptr`. -/
def unlinkServer (w : World) (x : Nat) : Option World :=
  (w.client x).bind fun c =>
    match c.servptr with
    | none => some w
    | some p => w.modify p fun d => { d with servers := d.servers.erase x }

/-- `close_connection`. -/
def closeConnection (w : World) (x : Nat) : Option World :=
  w.modify x fun c => { c with link := none, myConnect := false, ioError := true }

/-- `exit_remote_client`. -/
def exitRemoteClient (w : World) (x : Nat) : Option World := (unlinkUser w x).bind (bury · x)

/-- A user in the walk of `recurse_remove_clients`. -/
def removeUser (w : World) (x : Nat) : Option World :=
  (w.client x).bind fun c => if c.dead || c.closing then some w else exitRemoteClient w x

/-- `qs_server`. -/
def qsServer (w : World) (x : Nat) : Option World :=
  (unlinkServer w x).bind fun w => bury { w with globalServList := w.globalServList.erase x } x

/-- `recurse_remove_clients`; `depth` is how deep it may recurse. -/
def recurseRemoveClients : Nat → World → Nat → Option World
  | 0, _, _ => none
  | depth + 1, w, source =>
    (w.client source).bind fun c =>
      if c.status = .me then some w
      else
        (c.users.foldlM removeUser w).bind fun w =>
          (w.client source).bind fun c =>
            c.servers.foldlM (fun w t => (recurseRemoveClients depth w t).bind (qsServer · t)) w

/-- `exit_unknown_client`. -/
def exitUnknownClient (w : World) (x : Nat) : Option World :=
  (closeConnection { w with unknownList := w.unknownList.erase x } x).bind (bury · x)

/-- `exit_local_client`. -/
def exitLocalClient (w : World) (x : Nat) : Option World :=
  (({ w with lclientList := w.lclientList.erase x }).modify me fun d => { d with users := d.users.erase x }).bind fun w =>
    (closeConnection w x).bind (bury · x)

/-- `exit_remote_server`.  What it has to tell goes to the link that the server is behind. -/
def exitRemoteServer (w : World) (x : Nat) : Option World :=
  (recurseRemoveClients w.next w x).bind fun w =>
    (unlinkServer w x).bind fun w =>
      let w := { w with globalServList := w.globalServList.erase x }
      (sendtoOne w x false).bind (bury · x)

/-- `exit_local_server`. -/
def exitLocalServer (w : World) (x : Nat) : Option World :=
  (unlinkServer { w with servList := w.servList.erase x, globalServList := w.globalServList.erase x } x).bind fun w =>
    (closeConnection w x).bind fun w =>
      (recurseRemoveClients w.next w x).bind (bury · x)

/-- `exit_client`.  A write to the client that exits does not put it on `abort_list`; the other
    writes that fail are gathered before all else, as an exit looks at the flags of those only who
    are behind another server. -/
def exitClient (w : World) (x : Nat) (fails : List Nat) : Option World :=
  (w.client x).bind fun c =>
    if c.closing then some w
    else
      (w.modify x fun c => { c with closing := true }).bind fun w =>
        (failWrites w fails).bind fun w =>
          match c.myConnect, c.status with
          | true, .client => exitLocalClient w x
          | true, .server => exitLocalServer w x
          | true, _ => exitUnknownClient w x
          | false, .client => exitRemoteClient w x
          | false, .server => exitRemoteServer w x
          | false, _ => some w

/-- A client in the walk of `exit_aborted_clients`. -/
def exitAborted (fails : List Nat) (w : World) (x : Nat) : Option World :=
  (({ w with abortList := w.abortList.erase x }).modify x fun c => { c with closing := false }).bind fun w =>
    exitClient w x fails

/-- `exit_aborted_clients`. -/
def exitAbortedClients (w : World) (fails : List Nat) : Option World := w.abortList.foldlM (exitAborted fails) w

/-- A client in the walk of `free_exited_clients`: `free_client`. -/
def freeExited (w : World) (x : Nat) : Option World :=
  (w.client x).map fun _ => { w with client := Function.update w.client x none, deadList := w.deadList.erase x }

/-- `free_exited_clients`. -/
def freeExitedClients (w : World) : Option World := w.deadList.foldlM freeExited w

-- ============================================================================
-- New clients
-- ============================================================================

/-- `make_client` for a connection of our own. -/
def makeLocalClient (w : World) : World :=
  { w with
    client := Function.update w.client w.next (some ⟨.unknown, true, some w.next, none, [], [], false, false, false⟩)
    unknownList := w.next :: w.unknownList
    next := w.next + 1 }

/-- A connection that has not registered and can still be read from. -/
def World.isRegistering (w : World) (x : Nat) : Bool :=
  w.found x && (w.client x).any fun c => c.myConnect && c.status = .unknown && !c.isAnyDead

/-- `register_local_user`. -/
def registerLocalUser (w : World) (x : Nat) : Option World :=
  if w.isRegistering x then
    (({ w with unknownList := w.unknownList.erase x, lclientList := x :: w.lclientList }).modify x fun c =>
      { c with status := .client, servptr := some me }).bind fun w =>
        w.modify me fun d => { d with users := x :: d.users }
  else some w

/-- `server_estab`. -/
def serverEstab (w : World) (x : Nat) : Option World :=
  if w.isRegistering x then
    (({ w with unknownList := w.unknownList.erase x, servList := x :: w.servList,
               globalServList := w.globalServList ++ [x] }).modify x fun c =>
      { c with status := .server, servptr := some me }).bind fun w =>
        w.modify me fun d => { d with servers := x :: d.servers }
  else some w

/-- A server of our own that can still be read from. -/
def World.isLink (w : World) (x : Nat) : Bool :=
  w.found x && (w.client x).any fun c => c.myConnect && c.status = .server && !c.isAnyDead

/-- A server that `find_server` finds. -/
def World.isServer (w : World) (x : Nat) : Bool :=
  (w.client x).any fun c => c.status = .me || c.status = .server && w.found x

/-- The test of `parse`: a message from a server comes from the direction in which it is. -/
def World.isBehind (w : World) (server clientP : Nat) : Bool :=
  w.isServer server && (w.client server).any fun c => c.link = some clientP

/-- `register_client`, where the server is in another direction than the link: the notice names that
    direction and its link, and the client, which has been killed, exits. -/
def fakeDirection (w : World) (source direction : Nat) (fails : List Nat) : Option World :=
  (w.client direction).bind fun c => c.link.bind fun l => (w.client l).bind fun _ => exitClient w source fails

/-- `register_client`: `make_client` behind a link, with its server. -/
def registerClient (w : World) (clientP server : Nat) (fails : List Nat) : Option World :=
  (({ w with
    client := Function.update w.client w.next (some ⟨.client, false, some clientP, some server, [], [], false, false, false⟩)
    next := w.next + 1 }).modify server fun d => { d with users := w.next :: d.users }).bind fun w' =>
      (w'.client server).bind fun d =>
        if d.link = some clientP then some w'
        else d.link.bind fun direction => fakeDirection w' w.next direction fails

/-- `ms_uid`: the server is the source of the message. -/
def msUid (w : World) (clientP server : Nat) (fails : List Nat) : Option World :=
  if w.isLink clientP && w.isBehind server clientP then registerClient w clientP server fails else some w

/-- `ms_nick`: the server is a parameter of the message. -/
def msNick (w : World) (clientP server : Nat) (fails : List Nat) : Option World :=
  if w.isLink clientP && w.isServer server then registerClient w clientP server fails else some w

/-- `ms_server` and `ms_sid`, where the server may be introduced. -/
def msServer (w : World) (clientP source : Nat) : Option World :=
  if w.isLink clientP && w.isBehind source clientP then
    ({ w with
      client := Function.update w.client w.next (some ⟨.server, false, some clientP, some source, [], [], false, false, false⟩)
      globalServList := w.globalServList ++ [w.next]
      next := w.next + 1 }).modify source fun d => { d with servers := w.next :: d.servers }
  else some w

-- ============================================================================
-- Steps
-- ============================================================================

/-- What happens: a connection is made, it registers as a user or as a server, a link introduces a
    user (by `UID` or by `NICK`) or a server, something is sent to a client, a client is to exit,
    or one of the two events is run. -/
inductive Event where
  | connect
  | register (x : Nat)
  | estab (x : Nat)
  | uid (clientP server : Nat) (fails : List Nat)
  | nick (clientP server : Nat) (fails : List Nat)
  | server (clientP source : Nat)
  | send (target : Nat) (fails : Bool)
  | exit (x : Nat) (fails : List Nat)
  | exitAborted (fails : List Nat)
  | freeExited

/-- A step. -/
def step (w : World) : Event → Option World
  | .connect => some (makeLocalClient w)
  | .register x => registerLocalUser w x
  | .estab x => serverEstab w x
  | .uid clientP server fails => msUid w clientP server fails
  | .nick clientP server fails => msNick w clientP server fails
  | .server clientP source => msServer w clientP source
  | .send target fails => if w.found target then sendtoOne w target fails else some w
  | .exit x fails => if w.found x then exitClient w x fails else some w
  | .exitAborted fails => exitAbortedClients w fails
  | .freeExited => freeExitedClients w

end Bluebox.Exit
