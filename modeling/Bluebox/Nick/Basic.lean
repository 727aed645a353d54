/-
  Bluebox.Nick.Basic

  Nicks of two linked servers (`modules/core/m_nick.c`): users connect and
  change nick, `UID`, `NICK` and `SAVE` travel over two FIFO links, and each
  server settles the collisions it sees.

  Both servers have `collision_fnc` on and the capabilities `CAP_TS6` and
  `CAP_SAVE`, so `use_save` holds in every collision and nobody is killed for
  one.  Clients that have not registered are left out: they are dropped as soon
  as they are in the way.  There is no third server, so what is sent to all
  servers but the one a message came from is sent to nobody.
-/
import Mathlib.Logic.Function.Basic
import Bluebox.Lib.Reach
import Bluebox.Channel.Basic
import Bluebox.Nick.Ledger

namespace Bluebox.Nick

open Bluebox.Lib

-- ============================================================================
-- Checks
-- ============================================================================

/-- `SAVE_NICKTS`. -/
def saveNickTs : Nat := 100

/-- `clean_nick`. -/
def cleanNick (nick : Bytes) (locClient : Bool) : Bool :=
  nick != [] && nick.headD 0 != 45 && !(locClient && isDigit (nick.headD 0))
    && nick.all isNickChar && nick.length < nickLen

/-- `clean_username`. -/
def cleanUsername (username : Bytes) : Bool := username.all isUserChar && username.length ≤ userLen

/-- `clean_host`. -/
def cleanHost (host : Bytes) : Bool := host.all isHostChar && host.length ≤ hostLen

/-- `clean_uid`. -/
def cleanUid (uid : Bytes) : Bool :=
  isDigit (uid.headD 0) && uid.tail.all isIdChar && uid.length == idLen - 1

/-- The nick that `mr_nick` and `m_nick` read from their parameter, if they go on
    with it.  A `~` ends it. -/
def nickArg (arg : Bytes) : Option Bytes :=
  if arg = [] ∨ arg.head? = some 126 then none
  else
    let nick := strlcpy (arg.takeWhile (· != 126)) nickLen
    if cleanNick nick true then some nick else none

-- ============================================================================
-- Clients
-- ============================================================================

/-- The fields of `struct Client` that take part in collisions. -/
structure Client where
  id : Bytes
  name : Bytes
  tsinfo : Nat
  username : Bytes
  host : Bytes
  myClient : Bool
deriving DecidableEq, Repr

/-- `find_id`. -/
def findId (l : List Client) (id : Bytes) : Option Client := l.find? fun c => c.id == id

/-- `find_client`: a leading digit makes it an ID. -/
def findClient (l : List Client) (name : Bytes) : Option Client :=
  if name = [] then none
  else if isDigit (name.headD 0) then findId l name
  else l.find? fun c => irccmp name c.name == 0

/-- Write a client back. -/
def setClient (l : List Client) (c : Client) : List Client :=
  l.map fun d => if d.id = c.id then c else d

/-- `change_local_nick`: the time stamp is forced to increase, unless the nick
    changes in case only. -/
def changeLocalNick (c : Client) (nick : Bytes) (now : Nat) : Client :=
  { c with
    name := nick
    tsinfo :=
      if irccmp c.name nick = 0 then c.tsinfo
      else if now ≤ c.tsinfo then c.tsinfo + 1
      else now }

/-- `change_remote_nick`. -/
def changeRemoteNick (c : Client) (newts : Nat) (nick : Bytes) (now : Nat) : Client :=
  { c with
    name := nick
    tsinfo :=
      if irccmp c.name nick = 0 then c.tsinfo
      else if newts ≠ 0 then newts
      else now }

/-- `save_user`: the nick becomes the ID. -/
def saveUser (c : Client) (now : Nat) : Client :=
  if c.myClient then { changeLocalNick c c.id now with tsinfo := saveNickTs }
  else changeRemoteNick c saveNickTs c.id now

-- ============================================================================
-- Messages
-- ============================================================================

/-- The parameters of a `UID`. -/
structure Intro where
  nick : Bytes
  ts : Nat
  username : Bytes
  host : Bytes
  id : Bytes
deriving DecidableEq, Repr

/-- What the servers send each other. -/
inductive Message
  | uid (i : Intro)
  | nick (source nick : Bytes) (ts : Nat)
  | save (id : Bytes) (ts : Nat)
deriving DecidableEq, Repr

/-- `register_client`. -/
def registerClient (l : List Client) (i : Intro) (nick : Bytes) (newts : Nat) : List Client :=
  ⟨i.id, nick, newts, strlcpy i.username (userLen + 1), strlcpy i.host (hostLen + 1), false⟩ :: l

/-- Whether an incoming claim with `newts` loses against another time stamp. -/
def newLoses (sameuser : Bool) (newts tsinfo : Nat) : Bool :=
  (sameuser && newts < tsinfo) || (!sameuser && newts > tsinfo)

/-- `perform_nick_collides`: the clients, and what is sent back. -/
def performNickCollides (l : List Client) (target : Client) (i : Intro) (now : Nat) :
    List Client × List Message :=
  let saved := setClient l (saveUser target now)
  if i.ts = 0 ∨ target.tsinfo = 0 ∨ i.ts = target.tsinfo then
    (registerClient saved i i.id saveNickTs,
      [.save target.id target.tsinfo, .save i.id i.ts])
  else
    let sameuser := irccmp target.username i.username == 0 && irccmp target.host i.host == 0
    if newLoses sameuser i.ts target.tsinfo then
      (registerClient l i i.id saveNickTs, [.save i.id i.ts])
    else (registerClient saved i i.nick i.ts, [.save target.id target.tsinfo])

/-- A client that lost its new nick gets its ID, if it does not have it already. -/
def loseNick (l : List Client) (source : Client) (now : Nat) : List Client :=
  if isDigit (source.name.headD 0) then l
  else setClient l (changeRemoteNick source saveNickTs source.id now)

/-- `perform_nickchange_collides`. -/
def performNickchangeCollides (l : List Client) (source target : Client) (newts : Nat)
    (nick : Bytes) (now : Nat) : List Client × List Message :=
  let saved := setClient l (saveUser target now)
  if newts = 0 ∨ target.tsinfo = 0 ∨ newts = target.tsinfo then
    (loseNick saved source now, [.save target.id target.tsinfo, .save source.id newts])
  else
    let sameuser :=
      irccmp target.username source.username == 0 && irccmp target.host source.host == 0
    if newLoses sameuser newts target.tsinfo then
      (loseNick l source now, [.save source.id newts])
    else
      (setClient saved (changeRemoteNick source newts nick now), [.save target.id target.tsinfo])

/-- `ms_uid`; none where it answers with a `KILL`. -/
def msUid (l : List Client) (i : Intro) (now : Nat) : Option (List Client × List Message) :=
  if cleanNick i.nick false && cleanUsername i.username && cleanHost i.host && cleanUid i.id then
    match findClient l i.nick with
    | none => some (registerClient l i i.nick i.ts, [])
    | some target => some (performNickCollides l target i now)
  else none

/-- `mc_nick`; none where it answers with a `KILL`. -/
def mcNick (l : List Client) (source : Client) (nick : Bytes) (newts now : Nat) :
    Option (List Client × List Message) :=
  if cleanNick nick false then
    match findClient l nick with
    | none => some (setClient l (changeRemoteNick source newts nick now), [])
    | some target =>
      if target.id = source.id then
        if target.name ≠ nick then some (setClient l (changeRemoteNick source newts nick now), [])
        else some (l, [])
      else some (performNickchangeCollides l source target newts nick now)
  else none

/-- `ms_save`. -/
def msSave (l : List Client) (id : Bytes) (ts now : Nat) : List Client :=
  match findId l id with
  | none => l
  | some target =>
    if isDigit (target.name.headD 0) then l
    else if target.tsinfo = ts then setClient l (saveUser target now)
    else l

/-- Handle a message of the peer; none where the server answers with a `KILL`, as
    it also does for a prefix that it does not know or knows as its own user. -/
def receive (l : List Client) (now : Nat) : Message → Option (List Client × List Message)
  | .uid i => msUid l i now
  | .nick source nick ts =>
    match findId l source with
    | none => none
    | some c => if c.myClient then none else mcNick l c nick ts now
  | .save id ts => some (msSave l id ts now, [])

/-- `m_nick`: the client with its new nick, if it changes. -/
def mNick (l : List Client) (source : Client) (arg : Bytes) (now : Nat) : Option Client :=
  match nickArg arg with
  | none => none
  | some nick =>
    match findClient l nick with
    | some target =>
      if target.id = source.id ∧ target.name ≠ nick then some (changeLocalNick source nick now)
      else none
    | none => some (changeLocalNick source nick now)

-- ============================================================================
-- The network
-- ============================================================================

/-- The SIDs of the servers, and the username and host of the user of each UID.
    Registration only lets clean ones through. -/
structure Config where
  sid : Side → Bytes
  sid_ne : sid .a ≠ sid .b
  ident : Bytes → Bytes × Bytes
  ident_clean : ∀ id, cleanUsername (ident id).1 = true ∧ cleanHost (ident id).2 = true

/-- The clients of each server, what it has sent that has not arrived, and the
    clock.  `past` is a ghost: the time stamps a user took at home, newest
    first. -/
structure Net where
  clients : Side → List Client
  link : Side → List Message
  clock : Nat
  past : Bytes → List Nat

/-- Before anybody connects. -/
def Net.start : Net := ⟨fun _ => [], fun _ => [], 0, fun _ => []⟩

/-- What can happen: a user of server `x` registers with a nick it took at `ts`,
    changes nick, or is saved; or the first message that `x` sent arrives. -/
inductive Action
  | introduce (x : Side) (id arg : Bytes) (ts : Nat)
  | nick (x : Side) (id arg : Bytes)
  | save (x : Side) (id : Bytes)
  | deliver (x : Side)
deriving DecidableEq, Repr

/-- A server changes its clients and sends messages. -/
def Net.act (s : Net) (x : Side) (l : List Client) (out : List Message) : Net :=
  { s with
    clients := Function.update s.clients x l
    link := Function.update s.link x (s.link x ++ out) }

/-- The first message that a server sent is taken off its link. -/
def Net.pop (s : Net) (x : Side) (rest : List Message) : Net :=
  { s with link := Function.update s.link x rest }

/-- A user takes a time stamp at home. -/
def Net.stamp (s : Net) (id : Bytes) (ts : Nat) : Net :=
  { s with past := Function.update s.past id (ts :: s.past id) }

/-- Run an action when the clock shows `now`; none when it can not happen. -/
def Net.run (cfg : Config) (s : Net) (now : Nat) : Action → Option Net
  | .introduce x id arg ts =>
    match nickArg arg with
    | none => none
    | some nick =>
      if cleanUid id && id.take 3 == cfg.sid x && ts ≤ now && (findId (s.clients x) id).isNone
          && (findClient (s.clients x) nick).isNone then
        let i : Intro := ⟨nick, ts, (cfg.ident id).1, (cfg.ident id).2, id⟩
        let c : Client := ⟨id, nick, ts, i.username, i.host, true⟩
        some ((s.act x (c :: s.clients x) [.uid i]).stamp id ts)
      else none
  | .nick x id arg =>
    match findId (s.clients x) id with
    | none => none
    | some c =>
      if c.myClient then
        match mNick (s.clients x) c arg now with
        | none => some s
        | some c' =>
          some ((s.act x (setClient (s.clients x) c') [.nick id c'.name c'.tsinfo]).stamp id c'.tsinfo)
      else none
  | .save x id =>
    match findId (s.clients x) id with
    | none => none
    | some c =>
      if c.myClient && !isDigit (c.name.headD 0) then
        some (s.act x (setClient (s.clients x) (saveUser c now)) [.save id c.tsinfo])
      else none
  | .deliver x =>
    match s.link x with
    | [] => none
    | m :: rest =>
      match receive (s.clients x.other) now m with
      | none => none
      | some (l, out) => some ((s.pop x rest).act x.other l out)

/-- An action at a time; the clock does not go back. -/
def Net.step (cfg : Config) (s : Net) (e : Nat × Action) : Option Net :=
  if s.clock ≤ e.1 then (s.run cfg e.1 e.2).map fun s' => { s' with clock := e.1 } else none

-- ============================================================================
-- Agreement
-- ============================================================================

/-- Both servers have the same nick and time stamp for every UID. -/
def Net.Agree (s : Net) : Prop :=
  ∀ id, (findId (s.clients .a) id).map (fun c => (c.name, c.tsinfo))
    = (findId (s.clients .b) id).map (fun c => (c.name, c.tsinfo))

/-- The comparison of `find_client`. -/
def sameNick (s t : Bytes) : Bool := if isDigit (s.headD 0) then s == t else irccmp s t == 0

/-- No nick is held by two UIDs. -/
def NicksUnique (l : List Client) : Prop :=
  ∀ c ∈ l, ∀ d ∈ l, sameNick c.name d.name = true → c.id = d.id

end Bluebox.Nick
