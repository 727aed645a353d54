/-
  Bluebox.Dns.Basic

  Lookups and the clients that wait for them: `libratboxcore/dns.c` and
  `libratboxcore/s_auth.c`, with the lookups of `add_server_conf` and
  `free_server_conf` in `libratboxcore/s_newconf.c`.

  A lookup has a number, the place of its callback in `querytable`; the resolver is
  another process and answers by number.  A client that connects has a request that
  waits for the name of its address and for ident, each of which has a flag.

  A client that is let through has its commands read at once: `release_auth_client` ends
  in `read_packet`, and while that goes on `results_callback`, or the walk of the timer,
  waits in the middle of its work.  What a command can do to requests and lookups (a client
  exits, a configuration is made or freed, the resolver dies) is a step of its own, and so
  is the return.

  Memory that is freed is never given out again in the model, so that a use of it shows:
  a step that reads or writes a request or a configuration that there is not has no
  result, and neither has one in which the process dies or goes round for ever.
-/
import Bluebox.Lib.Reach
import Mathlib.Logic.Function.Basic

namespace Bluebox.Dns

-- ============================================================================
-- The world
-- ============================================================================

/-- `struct AuthRequest`: `dns` and `ident` are what `IsDNS` and `IsAuth` look at. -/
structure Auth where
  client : Nat
  dnsQuery : Nat
  authF : Option Nat
  dns : Bool
  ident : Bool
  timeout : Int

/-- Who waits for a lookup: the callback of an entry with its data. -/
inductive Owner where
  | auth (a : Nat)
  | conf (c : Nat)
  deriving DecidableEq

/-- Where a call of `read_packet` returns to, through `release_auth_client`: to `results_callback`
    for a number, to the callback of an ident socket, or to the walk over `auth_poll_list`
    with the `next_ptr` it has kept. -/
inductive Caller where
  | results (nid : Nat)
  | ident
  | timeout (now : Int) (next : Option Nat)
  deriving DecidableEq

/-- The requests and the `dns_query` of the configured servers, both by address, the
    `auth_request` of each client, `auth_poll_list`, `querytable` where there is a callback,
    `id`, whether there is a `dns_helper`, the request that each open ident socket calls
    back with, the clients that have been let through, who waits for the commands of the
    last of them, and what is free. -/
structure World where
  auths : Nat → Option Auth
  confs : Nat → Option Nat
  authRequest : Nat → Option Nat
  authPollList : List Nat
  querytable : Nat → Option Owner
  id : Nat
  dnsHelper : Bool
  sockets : Nat → Option Nat
  released : List Nat
  reading : Option Caller
  next : Nat

/-- The resolver has been started, and there is nothing else. -/
def World.start : World where
  auths := fun _ => none
  confs := fun _ => none
  authRequest := fun _ => none
  authPollList := []
  querytable := fun _ => none
  id := 1
  dnsHelper := true
  sockets := fun _ => none
  released := []
  reading := none
  next := 1

/-- A request is written. -/
def World.setAuth (w : World) (a : Nat) (q : Auth) : World := { w with auths := Function.update w.auths a (some q) }

-- ============================================================================
-- s_auth.c
-- ============================================================================

/-- `release_auth_client`, as far as `read_packet`. -/
def releaseAuthClient (w : World) (caller : Caller) (auth : Nat) : Option World :=
  match w.auths auth with
  | none => none
  | some q =>
    if q.dns || q.ident then some w
    else some { w with
      authRequest := Function.update w.authRequest q.client none
      authPollList := w.authPollList.erase auth
      auths := Function.update w.auths auth none
      released := w.released ++ [q.client]
      reading := some caller }

/-- `auth_dns_callback`. -/
def authDnsCallback (w : World) (caller : Caller) (auth : Nat) : Option World :=
  match w.auths auth with
  | none => none
  | some q => releaseAuthClient (w.setAuth auth { q with dns := false, dnsQuery := 0 }) caller auth

/-- The socket of a request is closed, and with it goes the callback it has. -/
def closeAuthF (w : World) (auth : Nat) (q : Auth) : World :=
  { w with
    sockets := match q.authF with
      | none => w.sockets
      | some F => Function.update w.sockets F none
    auths := Function.update w.auths auth (some { q with authF := none }) }

/-- What `auth_error` and the end of `read_auth` do: ident is over. -/
def identOver (w : World) (auth : Nat) : Option World :=
  match w.auths auth with
  | none => none
  | some q => releaseAuthClient (closeAuthF w auth { q with ident := false }) .ident auth

/-- How `start_auth_query` leaves ident: not started as the client is dead, ended already, or
    with a socket that will call back. -/
inductive IdentStart where
  | dead
  | ended
  | pending
  deriving DecidableEq

/-- `start_auth_query`; sockets are numbered as memory is. -/
def startAuthQuery (w : World) (auth : Nat) : IdentStart → Option World
  | .dead => some w
  | .ended => identOver w auth
  | .pending =>
    match w.auths auth with
    | none => none
    | some q => some { w.setAuth auth { q with authF := some w.next } with
        sockets := Function.update w.sockets w.next (some auth)
        next := w.next + 1 }

-- ============================================================================
-- dns.c
-- ============================================================================

/-- `IDTABLE`. -/
def idtable : Nat := 65535

/-- The loop of `assign_dns_id`.  When it has come back to where it was, it goes on for ever. -/
def assignDnsId (querytable : Nat → Option Owner) : Nat → Nat → Option Nat
  | 0, _ => none
  | fuel + 1, id =>
    let id := if id < idtable - 1 then id + 1 else 1
    if querytable id = none then some id else assignDnsId querytable fuel id

/-- `conf_dns_callback`. -/
def confDnsCallback (w : World) (c : Nat) : Option World :=
  match w.confs c with
  | none => none
  | some _ => some { w with confs := Function.update w.confs c (some 0) }

/-- The callback of an entry is called. -/
def runCallback (w : World) (caller : Caller) : Owner → Option World
  | .auth a => authDnsCallback w caller a
  | .conf c => confDnsCallback w c

/-- `cancel_lookup`. -/
def cancelLookup (w : World) (xid : Nat) : World := { w with querytable := Function.update w.querytable xid none }

/-- `failed_resolver`, and `results_callback` behind the reading of its arguments: the callback
    is called, and when it has returned the entry is empty. -/
def finishLookup (w : World) (nid : Nat) : Option World :=
  match w.querytable nid with
  | none => some w
  | some o => (runCallback w (.results nid) o).map fun w => if w.reading = none then cancelLookup w nid else w

/-- `results_callback`: `nid` is as wide as 16 bits, and the table has one entry less. -/
def resultsCallback (w : World) (nid : Nat) : Option World :=
  if nid % 65536 < idtable then finishLookup w (nid % 65536) else none

/-- `parse_dns_reply` is in the middle of an answer. -/
def World.answering (w : World) : Bool :=
  match w.reading with
  | some (.results _) => true
  | _ => false

/-- `restart_resolver_cb`: where the resolver does not start, `rehash_dns_vhost` writes through
    NULL, and in the middle of an answer `parse_dns_reply` goes on with the helper that has been
    freed. -/
def restartResolver (w : World) (started : Bool) : Option World :=
  if started && !w.answering then some { w with dnsHelper := true } else none

/-- `lookup_ip` and `lookup_hostname`: the number. -/
def lookup (w : World) (o : Owner) (started : Bool) : Option (World × Nat) :=
  (if w.dnsHelper then some w else restartResolver w started).bind fun w =>
    (assignDnsId w.querytable idtable w.id).bind fun nid =>
      let w := { w with id := nid, querytable := Function.update w.querytable nid (some o) }
      if w.dnsHelper then some (w, nid) else (finishLookup w nid).map fun w => (w, nid)

-- ============================================================================
-- Steps
-- ============================================================================

/-- `make_auth_request`, with both flags, in `auth_poll_list`; the client is new as well. -/
def makeAuthRequest (w : World) (timeout : Int) : World :=
  let client := w.next
  let auth := w.next + 1
  { w with
    auths := Function.update w.auths auth (some ⟨client, 0, none, true, true, timeout⟩)
    authRequest := Function.update w.authRequest client (some auth)
    authPollList := auth :: w.authPollList
    next := w.next + 2 }

/-- `start_auth`: ident is off, or it is started, and then the name is looked up. -/
def startAuth (w : World) (disableAuth : Bool) (ident : IdentStart) (started : Bool) (timeout : Int) : Option World :=
  let auth := w.next + 1
  let w := makeAuthRequest w timeout
  (if disableAuth then (w.auths auth).map fun q => w.setAuth auth { q with ident := false }
    else startAuthQuery w auth ident).bind fun w =>
      (lookup w (.auth auth) started).bind fun (w, nid) =>
        (w.auths auth).map fun q => w.setAuth auth { q with dnsQuery := nid }

/-- What `timeout_auth_queries_event` does with a request, with the one behind it. -/
def timeoutAuth (now : Int) (w : World) (auth : Nat) (next : Option Nat) : Option World :=
  match w.auths auth with
  | none => none
  | some q =>
    if q.timeout < now then
      let w := closeAuthF w auth { q with ident := false, dns := false, dnsQuery := if q.dns then 0 else q.dnsQuery }
      releaseAuthClient (if q.dns then cancelLookup w q.dnsQuery else w) (.timeout now next) auth
    else some w

/-- The loop of `timeout_auth_queries_event` over what is left of the list, up to the first
    client that is let through. -/
def timeoutLoop (now : Int) (w : World) : List Nat → Option World
  | [] => some w
  | auth :: l => (timeoutAuth now w auth l.head?).bind fun w => if w.reading = none then timeoutLoop now w l else some w

/-- `timeout_auth_queries_event`. -/
def timeoutAuthQueries (w : World) (now : Int) : Option World := timeoutLoop now w w.authPollList

/-- `read_packet` returns.  The walk of the timer goes on at the request behind the one it was at,
    wherever that stands in the list now. -/
def readPacketReturns (w : World) : Option World :=
  match w.reading with
  | none => none
  | some (.results nid) => some { cancelLookup w nid with reading := none }
  | some .ident => some { w with reading := none }
  | some (.timeout _ none) => some { w with reading := none }
  | some (.timeout now (some auth)) =>
    (w.auths auth).bind fun _ => timeoutLoop now { w with reading := none } (w.authPollList.dropWhile (· ≠ auth))

/-- The callback of an ident socket: the answer is not complete, or ident is over. -/
def identEvent (w : World) (F : Nat) (more : Bool) : Option World :=
  match w.sockets F with
  | none => some w
  | some auth =>
    if more then (w.auths auth).map fun _ => w
    else identOver w auth

/-- `delete_auth_queries`, for a client that exits. -/
def deleteAuthQueries (w : World) (client : Nat) : Option World :=
  match w.authRequest client with
  | none => some w
  | some auth =>
    match w.auths auth with
    | none => none
    | some q =>
      let w := { w with authRequest := Function.update w.authRequest client none }
      let w := if q.dns ∧ q.dnsQuery > 0 then cancelLookup w q.dnsQuery else w
      let w := closeAuthF w auth q
      some { w with authPollList := w.authPollList.erase auth, auths := Function.update w.auths auth none }

/-- `add_server_conf`, for a server with a name that is looked up. -/
def addServerConf (w : World) (started : Bool) : Option World :=
  let c := w.next
  (lookup { w with confs := Function.update w.confs c (some 0), next := w.next + 1 } (.conf c) started).bind
    fun (w, nid) => (w.confs c).map fun _ => { w with confs := Function.update w.confs c (some nid) }

/-- `free_server_conf`. -/
def freeServerConf (w : World) (c : Nat) : Option World :=
  match w.confs c with
  | none => none
  | some dnsQuery => some { cancelLookup w dnsQuery with confs := Function.update w.confs c none }

/-- What happens: a client connects, the resolver answers, an ident socket is ready, the timer
    goes off, a client exits, a server is configured or its configuration freed, the resolver
    dies, `read_packet` returns. -/
inductive Event where
  | connect (disableAuth : Bool) (ident : IdentStart) (started : Bool) (timeout : Int)
  | answer (nid : Nat)
  | ident (F : Nat) (more : Bool)
  | timer (now : Int)
  | exit (client : Nat)
  | addConf (started : Bool)
  | freeConf (c : Nat)
  | restart (started : Bool)
  | readEnd
  deriving DecidableEq

/-- What a command can do, and that there are no more of them; the rest comes from the main loop. -/
def Event.nested : Event → Bool
  | .exit _ | .addConf _ | .freeConf _ | .restart _ | .readEnd => true
  | _ => false

/-- What an event does. -/
def Event.run (w : World) : Event → Option World
  | .connect disableAuth query started timeout => startAuth w disableAuth query started timeout
  | .answer nid => resultsCallback w nid
  | .ident F more => identEvent w F more
  | .timer now => timeoutAuthQueries w now
  | .exit client => deleteAuthQueries w client
  | .addConf started => addServerConf w started
  | .freeConf c => freeServerConf w c
  | .restart started => restartResolver w started
  | .readEnd => readPacketReturns w

/-- A step: while `read_packet` goes on the main loop waits. -/
def step (w : World) (e : Event) : Option World := if w.reading = none ∨ e.nested = true then e.run w else none

end Bluebox.Dns
