/-
  Bluebox.Ssld.Conn

  The connections of `ssld/ssld.c`: a table of hash buckets by connection id, the
  list of dead connections, and the handlers that control messages, the event
  loop and the timers call.

  What a read, a flush, a compression or a look at the length of a queue brings
  is a list of answers that comes with each event; a handler takes them in
  order.  The bytes themselves and the counters are left out: nothing here
  depends on them.
-/
import Mathlib.Logic.Function.Basic
import Bluebox.Lib.Reach
import Bluebox.Ssld.Control

namespace Bluebox.Ssld

open Bluebox.Lib

-- ============================================================================
-- Data
-- ============================================================================

/-- `CONN_HASH_SIZE`. -/
def connHashSize : Nat := 2000

/-- A place where the code of the handlers can be entered: the callbacks, and the
    loops inside them. -/
inductive Routine
  | modWriteSendq
  | modFlush
  | plainReadCb
  | plainCork
  | plainRead
  | modReadCb
  | modRead
  | plainWriteSendq
  | shutdown
deriving DecidableEq, Repr

/-- A handler as `rb_setselect` keeps it, with the argument it will get. -/
structure Callback where
  fn : Routine
  data : Option Nat
deriving DecidableEq, Repr

/-- A handshake that is under way. -/
inductive Handshake
  | accept
  | connect
deriving DecidableEq, Repr

/-- `conn_t`, with its flags, and the handlers of its two descriptors. -/
structure Conn where
  id : ConnId
  ssl : Bool
  zip : Bool
  cork : Bool
  dead : Bool
  wWantsR : Bool
  rWantsW : Bool
  zipSsl : Bool
  freed : Bool
  onModRead : Option Callback
  onModWrite : Option Callback
  onPlainRead : Option Callback
  onPlainWrite : Option Callback
  handshake : Option Handshake
deriving DecidableEq, Repr

/-- What `make_conn` sets up. -/
def Conn.fresh : Conn :=
  ⟨-1, false, false, false, false, false, false, false, false, none, none, none, none, none⟩

/-- What a read or a flush returned: bytes, the end, an error to be ignored, one
    where SSL needs the other direction, or any other error. -/
inductive IoResult
  | bytes
  | eof
  | again
  | wants
  | error
deriving DecidableEq, Repr

/-- What the world answers. -/
inductive Answer
  | modRead (r : IoResult)
  | plainRead (r : IoResult)
  | modFlush (r : IoResult)
  | plainFlush (r : IoResult)
  | modLength (n : Nat)
  | plainLength (n : Nat)
  | deflated (ok : Bool)
  | inflated (ok : Bool)
deriving DecidableEq, Repr

/-- The state of `ssld`.  Addresses from `next` on have not been given out.  `wild`
    says that a handler used a connection that its lookup did not find. -/
structure World where
  conns : Nat → Conn
  next : Nat
  buckets : Nat → List Nat
  deadList : List Nat
  wild : Bool
  answers : List Answer

/-- Nothing connected. -/
def World.start : World := ⟨fun _ => Conn.fresh, 0, fun _ => [], [], false, []⟩

/-- Write to a connection. -/
def World.modify (w : World) (c : Nat) (f : Conn → Conn) : World :=
  { w with conns := Function.update w.conns c (f (w.conns c)) }

-- ============================================================================
-- The table
-- ============================================================================

/-- `connid_hash`: the index of a bucket, unless it lies before the table. -/
def connidHash (id : ConnId) : Option Nat :=
  if id.toInt.tmod connHashSize < 0 then none else some (id.toInt.tmod connHashSize).toNat

/-- The connections of a bucket. -/
def World.bucket (w : World) (id : ConnId) : List Nat := (connidHash id).elim [] w.buckets

/-- `conn_find_by_id`. -/
def connFindById (w : World) (id : ConnId) : Option Nat :=
  (w.bucket id).find? fun c => (w.conns c).id == id && !(w.conns c).dead

/-- Replace the bucket of an id. -/
def World.setBucket (w : World) (id : ConnId) (l : List Nat) : World :=
  { w with buckets := (connidHash id).elim w.buckets fun b => Function.update w.buckets b l }

/-- `conn_add_id_hash`. -/
def connAddIdHash (w : World) (c : Nat) (id : ConnId) : World :=
  (w.modify c fun k => { k with id := id }).setBucket id (c :: w.bucket id)

/-- `make_conn`; the new connection is at `next`. -/
def makeConn (w : World) : World :=
  { w with conns := Function.update w.conns w.next Conn.fresh, next := w.next + 1 }

/-- `close_conn`; `wait` is `WAIT_PLAIN`. -/
def closeConn (w : World) (c : Nat) (wait : Bool) : World :=
  let conn := w.conns c
  if conn.dead then w
  else
    let closed := { conn with
      dead := true, onModRead := none, onModWrite := none, handshake := none, onPlainWrite := none,
      onPlainRead := if wait then some ⟨.shutdown, none⟩ else none }
    let w' := w.modify c fun _ => closed
    let w' :=
      if 0 ≤ conn.id.toInt ∧ conn.zipSsl = false then w'.setBucket conn.id ((w.bucket conn.id).erase c)
      else w'
    if wait then w' else { w' with deadList := c :: w'.deadList }

-- ============================================================================
-- The handlers
-- ============================================================================

/-- The handlers for the SSL side after a flush that left `n` bytes. -/
def Conn.flushed (c : Nat) (r : IoResult) (n : Nat) (k : Conn) : Conn :=
  if n = 0 then { k with onModWrite := none }
  else if r = .wants then
    { k with onModRead := some ⟨.modWriteSendq, some c⟩, onModWrite := none, wWantsR := true }
  else { k with onModWrite := some ⟨.modWriteSendq, some c⟩ }

/-- A connection after `conn_mod_write_sendq` looked at its queue. -/
def World.flushed (w : World) (c : Nat) (r : IoResult) (n : Nat) (l : List Answer) : World :=
  { w with answers := l }.modify c (Conn.flushed c r n)

/-- The handlers of a connection.  They call each other; how often is bounded by
    the answers, and by the first argument. -/
def World.run : Nat → Routine → Nat → World → Option World
  | 0, _, _, _ => none
  | fuel + 1, .modWriteSendq, c, w =>
    if (w.conns c).dead then some w
    else if (w.conns c).wWantsR then
      (World.run fuel .modReadCb c (w.modify c fun k => { k with wWantsR := false })).bind fun w =>
        if (w.conns c).dead then some w else World.run fuel .modFlush c w
    else World.run fuel .modFlush c w
  | fuel + 1, .modFlush, c, w =>
    match w.answers with
    | .modFlush r :: l =>
      if r = .bytes then World.run fuel .modFlush c { w with answers := l }
      else if r = .eof ∨ r = .error then some (closeConn { w with answers := l } c true)
      else
        match l with
        | .modLength n :: l =>
          if ((w.flushed c r n l).conns c).cork = true ∧ n = 0 then
            World.run fuel .plainReadCb c
              ((w.flushed c r n l).modify c fun k => { k with cork := false })
          else some (w.flushed c r n l)
        | _ => none
    | _ => none
  | fuel + 1, .plainReadCb, c, w =>
    if (w.conns c).dead then some w else World.run fuel .plainCork c w
  | fuel + 1, .plainCork, c, w =>
    match w.answers with
    | .modLength n :: l =>
      let w := { w with answers := l }
      if n ≥ 4096 then
        World.run fuel .modWriteSendq c (w.modify c fun k => { k with cork := true, onPlainRead := none })
      else World.run fuel .plainRead c w
    | _ => none
  | fuel + 1, .plainRead, c, w =>
    if (w.conns c).dead then some w
    else
      match w.answers with
      | .plainRead r :: l =>
        match r with
        | .eof => some (closeConn { w with answers := l } c false)
        | .error => some (closeConn { w with answers := l } c false)
        | .bytes =>
          if (w.conns c).zip then
            match l with
            | .deflated true :: l => World.run fuel .plainCork c { w with answers := l }
            | .deflated false :: l => some (closeConn { w with answers := l } c true)
            | _ => none
          else World.run fuel .plainCork c { w with answers := l }
        | _ =>
          World.run fuel .modWriteSendq c ({ w with answers := l }.modify c fun k =>
            { k with onPlainRead := some ⟨.plainReadCb, some c⟩ })
      | _ => none
  | fuel + 1, .modReadCb, c, w =>
    if (w.conns c).dead then some w
    else if (w.conns c).rWantsW then
      (World.run fuel .modWriteSendq c (w.modify c fun k => { k with rWantsW := false })).bind
        fun w => if (w.conns c).dead then some w else World.run fuel .modRead c w
    else World.run fuel .modRead c w
  | fuel + 1, .modRead, c, w =>
    if (w.conns c).dead then some w
    else
      match w.answers with
      | .modRead r :: l =>
        match r with
        | .eof => some (closeConn { w with answers := l } c true)
        | .error => some (closeConn { w with answers := l } c true)
        | .bytes =>
          if (w.conns c).zip then
            match l with
            | .inflated true :: l => World.run fuel .modRead c { w with answers := l }
            | .inflated false :: l => some (closeConn { w with answers := l } c true)
            | _ => none
          else World.run fuel .modRead c { w with answers := l }
        | .again =>
          World.run fuel .plainWriteSendq c ({ w with answers := l }.modify c fun k =>
            { k with onModRead := some ⟨.modReadCb, some c⟩ })
        | .wants =>
          World.run fuel .plainWriteSendq c ({ w with answers := l }.modify c fun k =>
            { k with onModRead := none, onModWrite := some ⟨.modReadCb, some c⟩, rWantsW := true })
      | _ => none
  | fuel + 1, .plainWriteSendq, c, w =>
    if (w.conns c).dead then some w
    else
      match w.answers with
      | .plainFlush r :: l =>
        match r with
        | .bytes => World.run fuel .plainWriteSendq c { w with answers := l }
        | .eof => some (closeConn { w with answers := l } c false)
        | .error => some (closeConn { w with answers := l } c false)
        | _ =>
          match l with
          | .plainLength n :: l =>
            some ({ w with answers := l }.modify c fun k =>
              { k with onPlainWrite := if n = 0 then none else some ⟨.plainWriteSendq, some c⟩ })
          | _ => none
      | _ => none
  | fuel + 1, .shutdown, c, w =>
    match w.answers with
    | .plainRead r :: l =>
      match r with
      | .bytes => World.run fuel .shutdown c { w with answers := l }
      | .eof => some { (w.modify c fun k => { k with onPlainRead := none, onPlainWrite := none }) with
          answers := l, deadList := c :: w.deadList }
      | .error => some { (w.modify c fun k => { k with onPlainRead := none, onPlainWrite := none }) with
          answers := l, deadList := c :: w.deadList }
      | _ => some ({ w with answers := l }.modify c fun k =>
          { k with onPlainRead := some ⟨.shutdown, some c⟩ })
    | _ => none

/-- Call a handler with its argument. -/
def World.call (w : World) (fuel : Nat) (cb : Callback) : Option World :=
  cb.data.elim (some w) fun c => w.run fuel cb.fn c

-- ============================================================================
-- Control messages
-- ============================================================================

/-- A new connection, entered in the table if its id is not negative. -/
def newConn (w : World) (id : ConnId) : World :=
  if 0 ≤ id.toInt then connAddIdHash (makeConn w) w.next id else makeConn w

/-- `ssl_process_accept` and `ssl_process_connect`. -/
def sslProcess (w : World) (id : ConnId) (h : Handshake) : World :=
  (newConn w id).modify w.next fun k => { k with ssl := true, handshake := some h }

/-- `send_nossl_support` and `send_nozlib_support`; without descriptors they use a
    connection that was not made. -/
def sendNoSupport (w : World) (ctlb : CtlBuf) : Option World :=
  if ctlb.nfds < 2 then none
  else some (closeConn (newConn w (bufToInt32 (ctlb.buf.drop 1))) w.next true)

/-- `change_connid`. -/
def changeId (w : World) (id newid : ConnId) : World :=
  match connFindById w id with
  | none => { w with wild := true }
  | some c =>
    let conn := w.conns c
    let w' := w.modify c fun k => { k with zipSsl := true, id := newid }
    if 0 ≤ conn.id.toInt then w'.setBucket conn.id ((w.bucket conn.id).erase c) else w'

/-- `zlib_process`: the id is entered without a look at its sign. -/
def zlibStart (w : World) (fuel : Nat) (id : ConnId) (recvq : Bytes) : Option World :=
  if connidHash id = none then none
  else
    let c := w.next
    let w := (connAddIdHash (makeConn w) c id).modify c fun k => { k with zip := true }
    let inflated : Option World :=
      if recvq = [] then some w
      else
        match w.answers with
        | .inflated true :: l => some { w with answers := l }
        | .inflated false :: l => some (closeConn { w with answers := l } c true)
        | _ => none
    inflated.bind fun w => (w.run fuel .modReadCb c).bind fun w => w.run fuel .plainReadCb c

/-- `mod_process_cmd_recv`, for one message. -/
def World.control (sup : Support) (w : World) (fuel : Nat) (ctlb : CtlBuf) : Option World :=
  match modProcessCmdRecv sup ctlb with
  | .run (.accept id) => some (sslProcess w id .accept)
  | .run (.connect id) => some (sslProcess w id .connect)
  | .run (.newKeys _ _ _) => some w
  | .run (.initPrng _ _) => some w
  | .run (.stats _ _) => some w
  | .run (.connid id newid) => some (changeId w id newid)
  | .run (.zlib id _ recvq) => zlibStart w fuel id recvq
  | .noSsl => sendNoSupport w ctlb
  | .noZlib => sendNoSupport w ctlb
  | .bad => some w
  | .dropped => some w

-- ============================================================================
-- Events
-- ============================================================================

/-- How a handshake ended. -/
inductive Status
  | ok
  | timeout
  | error
deriving DecidableEq, Repr

/-- `ssl_process_accept_cb` and `ssl_process_connect_cb`. -/
def World.handshaken (w : World) (fuel : Nat) (c : Nat) (h : Handshake) (status : Status) :
    Option World :=
  let w := w.modify c fun k => { k with handshake := none }
  match status with
  | .ok => (w.run fuel .modReadCb c).bind fun w => w.run fuel .plainReadCb c
  | _ => some (closeConn w c (h == .connect))

/-- `check_handshake_flood`, for one connection. -/
def checkFlood (count : Nat → Nat) (w : World) (c : Nat) : World :=
  if (w.conns c).ssl = true ∧ count c > 2 then closeConn w c true else w

/-- The descriptors of a connection and what they are ready for. -/
inductive Ready
  | modRead
  | modWrite
  | plainRead
  | plainWrite
deriving DecidableEq, Repr

/-- Take the handler away that is registered. -/
def Conn.take (k : Conn) : Ready → Option Callback × Conn
  | .modRead => (k.onModRead, { k with onModRead := none })
  | .modWrite => (k.onModWrite, { k with onModWrite := none })
  | .plainRead => (k.onPlainRead, { k with onPlainRead := none })
  | .plainWrite => (k.onPlainWrite, { k with onPlainWrite := none })

/-- What can happen.  The answers are those that the handlers will get. -/
inductive Event
  | control (ctlb : CtlBuf)
  | ready (c : Nat) (r : Ready)
  | handshake (c : Nat) (status : Status)
  | checkHandshakeFlood (count : Nat → Nat)
  | cleanDeadConns

/-- One event, with the answers to come and a bound on the calls. -/
def World.step (sup : Support) (w : World) (x : Event × List Answer × Nat) : Option World :=
  let w := { w with answers := x.2.1 }
  let fuel := x.2.2
  if w.wild then none
  else
    match x.1 with
    | .control ctlb => w.control sup fuel ctlb
    | .ready c r =>
      if w.next ≤ c then none
      else
        match (w.conns c).take r with
        | (none, _) => none
        | (some cb, k) => (w.modify c fun _ => k).call fuel cb
    | .handshake c status =>
      if w.next ≤ c then none
      else
        match (w.conns c).handshake with
        | none => none
        | some h => w.handshaken fuel c h status
    | .checkHandshakeFlood count =>
      some ((List.range connHashSize).foldl
        (fun w' b => (w.buckets b).foldl (checkFlood count) w') w)
    | .cleanDeadConns =>
      some { w with
        conns := fun c => if c ∈ w.deadList then { w.conns c with freed := true } else w.conns c
        deadList := [] }

-- ============================================================================
-- Soundness
-- ============================================================================

/-- A connection that was made and not freed. -/
def World.Exists (w : World) (c : Nat) : Prop := c < w.next ∧ (w.conns c).freed = false

/-- The table is sound. -/
structure World.Sound (w : World) : Prop where
  live : ∀ c, w.Exists c → (w.conns c).dead = false → 0 ≤ (w.conns c).id.toInt →
    (w.conns c).zipSsl = false →
    ∀ b, (w.buckets b).count c = if connidHash (w.conns c).id = some b then 1 else 0
  dead : ∀ c, w.Exists c → (w.conns c).dead = true → ∀ b, c ∉ w.buckets b
  waiting : ∀ c, w.Exists c → (w.conns c).dead = true →
    c ∈ w.deadList ∨ (w.conns c).onPlainRead = some ⟨.shutdown, some c⟩
  found : w.wild = false

end Bluebox.Ssld
