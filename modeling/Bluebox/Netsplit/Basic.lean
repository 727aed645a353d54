/-
  Bluebox.Netsplit.Basic

  The exit of a server: `exit_remote_server`, `exit_local_server` and what they call
  in `libratboxcore/client.c`.

  Clients are named by their addresses.  A server lists its own users and the servers
  behind it, and the walks over these lists remove the clients they come to.  Both
  walks recurse, so they take a depth that they may not exceed.  What is sent is what
  is handed to `sendto_one`.
-/
import Mathlib.Logic.Function.Basic
import Mathlib.Data.List.Basic
import Bluebox.Lib.CString

namespace Bluebox.Netsplit

open Bluebox.Lib

-- ============================================================================
-- Data
-- ============================================================================

/-- `STAT_ME`, `STAT_SERVER` and `STAT_CLIENT`. -/
inductive Status
  | me
  | server
  | client
deriving DecidableEq, Repr

/-- The fields of `struct Client` that an exit reads or writes.  `link` is `from`;
    `users` and `servers` are the lists of `serv`. -/
structure Client where
  name : Bytes
  id : Bytes
  status : Status
  servptr : Nat
  link : Nat
  users : List Nat
  servers : List Nat
  capQs : Bool
  capTs6 : Bool
  ioError : Bool
  killed : Bool
  dead : Bool
  closing : Bool

/-- A message to a server. -/
inductive Msg
  | quit (name comment : Bytes)
  | squit (source : Option Bytes) (name comment : Bytes)
  | error (name comment : Bytes)
deriving DecidableEq, Repr

/-- The clients, the lists they are on, and what has been sent to whom. -/
structure Net where
  client : Nat → Client
  globalClientList : List Nat
  globalServList : List Nat
  servList : List Nat
  sent : List (Nat × Msg)

/-- What has been sent to a client. -/
def Net.sentTo (s : Net) (dest : Nat) : List Msg := (s.sent.filter fun x => x.1 == dest).map Prod.snd

/-- Change a client. -/
def Net.modify (s : Net) (x : Nat) (f : Client → Client) : Net :=
  { s with client := Function.update s.client x (f (s.client x)) }

/-- `sendto_one`. -/
def Net.sendtoOne (s : Net) (dest : Nat) (msg : Msg) : Net := { s with sent := s.sent ++ [(dest, msg)] }

/-- `use_id`. -/
def Client.useId (c : Client) : Bytes := if c.id ≠ [] then c.id else c.name

/-- `get_id`. -/
def Net.getId (s : Net) (source target : Nat) : Bytes :=
  if (s.client (s.client target).link).status = .server ∧ (s.client (s.client target).link).id ≠ [] then
    (s.client source).useId
  else (s.client source).name

/-- `remove_client_from_list`. -/
def Net.removeClientFromList (s : Net) (x : Nat) : Net :=
  { s with globalClientList := s.globalClientList.erase x }

/-- `rb_dlinkFindDestroy` on `global_serv_list`. -/
def Net.removeGlobalServ (s : Net) (x : Nat) : Net :=
  { s with globalServList := s.globalServList.erase x }

/-- `rb_dlinkDelete` on `serv_list`. -/
def Net.removeServ (s : Net) (x : Nat) : Net := { s with servList := s.servList.erase x }

@[simp] theorem client_removeClientFromList (s : Net) (x : Nat) :
    (s.removeClientFromList x).client = s.client := rfl

@[simp] theorem client_removeGlobalServ (s : Net) (x : Nat) :
    (s.removeGlobalServ x).client = s.client := rfl

@[simp] theorem client_removeServ (s : Net) (x : Nat) : (s.removeServ x).client = s.client := rfl

@[simp] theorem client_sendtoOne (s : Net) (dest : Nat) (msg : Msg) :
    (s.sendtoOne dest msg).client = s.client := rfl

theorem modify_self (s : Net) (x : Nat) (f : Client → Client) :
    (s.modify x f).client x = f (s.client x) := Function.update_self ..

theorem modify_of_ne {s : Net} {x y : Nat} (h : y ≠ x) (f : Client → Client) :
    (s.modify x f).client y = s.client y := Function.update_of_ne h ..

/-- A server leaves the list of its uplink. -/
def Net.unlinkServer (s : Net) (x : Nat) : Net :=
  s.modify (s.client x).servptr fun c => { c with servers := c.servers.erase x }

/-- A user leaves the list of its server. -/
def Net.unlinkUser (s : Net) (x : Nat) : Net :=
  s.modify (s.client x).servptr fun c => { c with users := c.users.erase x }

/-- `SetDead`. -/
def Net.setDead (s : Net) (x : Nat) : Net := s.modify x fun c => { c with dead := true }

-- ============================================================================
-- Users
-- ============================================================================

/-- `sendto_server` of a `QUIT`, by id to the servers with `CAP_TS6` and by name to
    the others. -/
def Net.sendQuits (s : Net) (clientP : Option Nat) (x : Nat) (comment : Bytes) : Net :=
  s.servList.foldl (fun s dest =>
    if some dest = clientP then s
    else s.sendtoOne dest (.quit (if (s.client dest).capTs6 then (s.client x).useId else (s.client x).name)
      comment)) s

/-- `exit_remote_client`. -/
def Net.exitRemoteClient (s : Net) (clientP : Option Nat) (x : Nat) (comment : Bytes) : Net :=
  if (s.client x).killed then ((s.removeClientFromList x).unlinkUser x).setDead x
  else (((s.removeClientFromList x).unlinkUser x).sendQuits clientP x comment).setDead x

/-- A user in the walk of `recurse_remove_clients`. -/
def Net.removeUser (comment : Bytes) (s : Net) (x : Nat) : Net :=
  if (s.client x).dead || (s.client x).closing then s.modify x fun c => { c with killed := true }
  else (s.modify x fun c => { c with killed := true }).exitRemoteClient none x comment

-- ============================================================================
-- Servers
-- ============================================================================

/-- `qs_server`. -/
def Net.qsServer (s : Net) (x : Nat) : Net :=
  ((s.unlinkServer x).removeGlobalServ x).removeClientFromList x |>.setDead x

/-- The users of a server go. -/
def Net.removeUsers (comment : Bytes) (s : Net) (source : Nat) : Net :=
  (s.client source).users.foldl (Net.removeUser comment) s

/-- `recurse_remove_clients`. -/
def Net.recurseRemoveClients (comment : Bytes) : Nat → Net → Nat → Option Net
  | 0, _, _ => none
  | depth + 1, s, source =>
    if (s.client source).status = .me then some s
    else
      ((s.removeUsers comment source).client source).servers.foldlM
        (fun s t => (Net.recurseRemoveClients comment depth s t).map fun s => s.qsServer t)
        (s.removeUsers comment source)

/-- `recurse_send_quits`: what is sent to a server. -/
def Net.recurseSendQuits (s : Net) (dest : Nat) (comment1 comment : Bytes) : Nat → Nat → Option (List Msg)
  | 0, _ => none
  | depth + 1, source =>
    if (s.client dest).capQs then some [.squit none (s.getId source dest) comment]
    else
      ((s.client source).servers.mapM (s.recurseSendQuits dest comment1 comment depth)).map fun below =>
        (s.client source).users.map (fun x => .quit (s.client x).name comment1) ++ below.flatten ++
          [.squit none (s.client source).name comment]

/-- The walk of `remove_dependents` over `serv_list`. -/
def Net.sendDependents (depth : Nat) (clientP : Option Nat) (source : Nat) (comment comment1 : Bytes)
    (s : Net) (dest : Nat) : Option Net :=
  if (s.client dest).status = .me ∨ dest = (s.client source).link ∨
      (some dest = clientP ∧ (s.client dest).capQs = true) then some s
  else
    (s.recurseSendQuits dest comment1 comment depth source).map fun msgs =>
      { s with sent := s.sent ++ msgs.map fun msg => (dest, msg) }

/-- `remove_dependents`. -/
def Net.removeDependents (depth : Nat) (s : Net) (clientP : Option Nat) (source : Nat)
    (comment comment1 : Bytes) : Option Net :=
  (s.servList.foldlM (Net.sendDependents depth clientP source comment comment1) s).bind fun s =>
    s.recurseRemoveClients comment1 depth source

/-- The reason that goes into a `QUIT`: the two servers of the lost link. -/
def Net.splitComment (s : Net) (source : Nat) : Bytes :=
  (s.client (s.client source).servptr).name ++ [32] ++ (s.client source).name

/-- `by <name>: <comment>`. -/
def byComment (name comment : Bytes) : Bytes :=
  strlcpy ([98, 121, 32] ++ name ++ [58, 32] ++ comment) 512

/-- The `SQUIT` of `exit_remote_server` to the link that the server is behind. -/
def Net.sendUpstream (s : Net) (clientP : Option Nat) (source fromP : Nat) (comment : Bytes) : Net :=
  let target := (s.client source).link
  if (s.client target).status = .server ∧ some target ≠ clientP ∧ (s.client source).killed = false then
    s.sendtoOne target (.squit (some (s.getId fromP target)) (s.getId source target) comment)
  else s

/-- `exit_remote_server`. -/
def Net.exitRemoteServer (depth : Nat) (s : Net) (clientP : Option Nat) (source fromP : Nat)
    (comment : Bytes) : Option Net :=
  let reason := if (s.client fromP).status = .client then byComment (s.client fromP).name comment
    else comment
  (s.removeDependents depth clientP source reason (s.splitComment source)).map fun s =>
    ((((s.unlinkServer source).removeGlobalServ source).sendUpstream clientP source fromP
      comment).removeClientFromList source).setDead source

/-- `exit_local_server` up to `close_connection`: the server leaves the lists of
    servers, and may be told why. -/
def Net.closeLink (s : Net) (clientP : Option Nat) (source : Nat) (comment : Bytes) : Net :=
  let s := (s.removeServ source).removeGlobalServ source
  (if clientP.isSome ∧ clientP ≠ some source ∧ (s.client source).ioError = false then
    s.sendtoOne source (.error (s.client source).name comment) else s).unlinkServer source

/-- `exit_local_server`. -/
def Net.exitLocalServer (depth : Nat) (s : Net) (clientP : Option Nat) (source fromP : Nat)
    (comment : Bytes) : Option Net :=
  let me := (s.client source).servptr
  let newcomment := byComment (s.client (if fromP = source then me else fromP)).name comment
  let reason := if (s.client fromP).status = .client then newcomment else comment
  ((s.closeLink clientP source comment).removeDependents depth clientP source reason
    (s.splitComment source)).map fun s => (s.removeClientFromList source).setDead source

end Bluebox.Netsplit
