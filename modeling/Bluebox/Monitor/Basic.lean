/-
  Bluebox.Monitor.Basic

  Notify lists: `libratboxcore/monitor.c`, `modules/m_monitor.c` and the places that tell
  the watchers of a nick when it comes and goes (`s_user.c`, `m_nick.c`, `m_services.c` and
  `client.c`).

  An entry for a nick holds the clients that watch it, and a client holds its entries.
  Entries are named by their addresses, which are not used again.  Nicks that differ in
  case only are the same.  No client has a write error.
-/
import Mathlib.Logic.Function.Basic
import Bluebox.Match
import Bluebox.Channel.Basic

namespace Bluebox.Monitor

open Bluebox.Lib

-- ============================================================================
-- Nicks
-- ============================================================================

/-- `irccmp` finds no difference. -/
def sameNick (a b : Bytes) : Bool := a.map toUpper == b.map toUpper

theorem sameNick_iff {a b : Bytes} : sameNick a b = true ↔ a.map toUpper = b.map toUpper :=
  beq_iff_eq

theorem sameNick_iff_irccmp {a b : Bytes} (ha : NoNul a) (hb : NoNul b) :
    sameNick a b = true ↔ irccmp a b = 0 := by
  rw [sameNick_iff, irccmp_eq_zero_iff ha hb]

theorem sameNick_refl (a : Bytes) : sameNick a a = true := by
  rw [sameNick_iff]

theorem sameNick_comm (a b : Bytes) : sameNick a b = sameNick b a := by
  rw [Bool.eq_iff_iff, sameNick_iff, sameNick_iff]
  exact eq_comm

theorem sameNick_trans {a b c : Bytes} (h : sameNick a b = true) (h' : sameNick b c = true) :
    sameNick a c = true := by
  rw [sameNick_iff] at h h' ⊢
  rw [h, h']

/-- The same nick looks the same from outside. -/
theorem sameNick_congr {a b : Bytes} (h : sameNick a b = true) (c : Bytes) :
    sameNick a c = sameNick b c := by
  rw [sameNick_iff] at h
  unfold sameNick
  rw [h]

/-- `fnv_hash_upper` with `MONITOR_HASH_BITS`.  The mask is `(2 ^ 16) - 1` with the `^` of C. -/
def hashMonitorNick (name : Bytes) : Nat :=
  let h := (name.map toUpper).foldl (fun (h : UInt32) c =>
    let h := h ^^^ c.toUInt32
    h + ((h <<< 1) + (h <<< 4) + (h <<< 7) + (h <<< 8) + (h <<< 24))) 0x811c9dc5
  ((h >>> 16) ^^^ (h &&& 17)).toNat

theorem hashMonitorNick_congr {a b : Bytes} (h : sameNick a b = true) :
    hashMonitorNick a = hashMonitorNick b := by
  unfold hashMonitorNick
  rw [sameNick_iff.mp h]

-- ============================================================================
-- Data
-- ============================================================================

/-- The fields of `struct Client` that are read here.  `host` is the public one. -/
structure Client where
  name : Bytes
  username : Bytes
  host : Bytes
  registered : Bool
  myConnect : Bool

/-- The client under another name. -/
def Client.setName (c : Client) (nick : Bytes) : Client := { c with name := nick }

/-- The client, no more registered. -/
def Client.gone (c : Client) : Client := { c with registered := false }

/-- A line to a client: the two numerics with their lists, and the other replies. -/
inductive Line
  | online (who : List (Bytes × Bytes × Bytes))
  | offline (nicks : List Bytes)
  | list (nicks : List Bytes)
  | endOfList
  | listFull (limit : Nat) (rest : Bytes)
  | needMoreParams
deriving DecidableEq

/-- The clients and the table of their names, the `monitor_list` of each client, the name
    and the users of each entry, the chains of `monitorTable`, and what was sent to whom. -/
structure Net where
  me : Bytes
  maxMonitor : Nat
  client : Nat → Client
  clientTable : List Nat
  monitorList : Nat → List Nat
  entryName : Nat → Bytes
  users : Nat → List Nat
  monitorTable : Nat → List Nat
  nextEntry : Nat
  sent : List (Nat × Line)

/-- Change a client. -/
def Net.modify (s : Net) (x : Nat) (f : Client → Client) : Net :=
  { s with client := Function.update s.client x (f (s.client x)) }

/-- A line to a client. -/
def Net.send (s : Net) (x : Nat) (line : Line) : Net := { s with sent := s.sent ++ [(x, line)] }

/-- `find_named_client`. -/
def Net.findNamedClient (s : Net) (name : Bytes) : Option Nat :=
  if name = [] then none else s.clientTable.find? fun x => sameNick name (s.client x).name

/-- `find_named_person`. -/
def Net.findNamedPerson (s : Net) (name : Bytes) : Option Nat :=
  (s.findNamedClient name).filter fun x => (s.client x).registered

-- ============================================================================
-- monitor.c
-- ============================================================================

/-- `find_monitor` without `add`. -/
def Net.findMonitor (s : Net) (name : Bytes) : Option Nat :=
  (s.monitorTable (hashMonitorNick name)).find? fun e => sameNick (s.entryName e) name

/-- A new entry at the head of its chain. -/
def Net.newEntry (s : Net) (name : Bytes) : Net :=
  { s with entryName := Function.update s.entryName s.nextEntry (strlcpy name nickLen)
           users := Function.update s.users s.nextEntry []
           monitorTable := Function.update s.monitorTable (hashMonitorNick name)
             (s.nextEntry :: s.monitorTable (hashMonitorNick name))
           nextEntry := s.nextEntry + 1 }

/-- `find_monitor` with `add`. -/
def Net.findMonitorAdd (s : Net) (name : Bytes) : Net × Nat :=
  match s.findMonitor name with
  | some e => (s, e)
  | none => (s.newEntry name, s.nextEntry)

/-- `sendto_monitor`. -/
def Net.sendtoMonitor (s : Net) (e : Nat) (line : Line) : Net :=
  { s with sent := s.sent ++ (s.users e).map fun u => (u, line) }

/-- Tell the watchers of a nick. -/
def Net.tellMonitor (s : Net) (name : Bytes) (line : Line) : Net :=
  match s.findMonitor name with
  | none => s
  | some e => s.sendtoMonitor e line

/-- `monitor_signon`. -/
def Net.monitorSignon (s : Net) (x : Nat) : Net :=
  s.tellMonitor (s.client x).name
    (.online [((s.client x).name, (s.client x).username, (s.client x).host)])

/-- `monitor_signoff`. -/
def Net.monitorSignoff (s : Net) (x : Nat) : Net :=
  s.tellMonitor (s.client x).name (.offline [(s.client x).name])

/-- A client leaves the list of an entry. -/
def Net.unwatch (x : Nat) (s : Net) (e : Nat) : Net :=
  { s with users := Function.update s.users e ((s.users e).erase x) }

/-- A client has other entries. -/
def Net.setMonitorList (s : Net) (x : Nat) (l : List Nat) : Net :=
  { s with monitorList := Function.update s.monitorList x l }

/-- `clear_monitor`. -/
def Net.clearMonitor (s : Net) (x : Nat) : Net :=
  ((s.monitorList x).foldl (Net.unwatch x) s).setMonitorList x []

-- ============================================================================
-- m_monitor.c
-- ============================================================================

/-- `rb_strtok_r` at commas: a token and what is left. -/
def nextToken (s : Bytes) : Option (Bytes × Bytes) :=
  if s.dropWhile (· == 44) = [] then none
  else some ((s.dropWhile (· == 44)).takeWhile (· != 44),
    ((s.dropWhile (· == 44)).dropWhile (· != 44)).drop 1)

/-- The tokens of a list, each with what is left after it. -/
def tokens : Nat → Bytes → List (Bytes × Bytes)
  | 0, _ => []
  | n + 1, s =>
    match nextToken s with
    | none => []
    | some (name, rest) => (name, rest) :: tokens n rest

/-- The length of an `RPL_MONONLINE` with an empty list. -/
def Net.headLength (s : Net) (x : Nat) : Nat := s.me.length + (s.client x).name.length + 8

/-- The two lines that `add_monitor` and `show_monitor_status` fill, and their lengths. -/
structure Buffers where
  onbuf : List (Bytes × Bytes × Bytes)
  onlen : Nat
  offbuf : List Bytes
  offlen : Nat

/-- Two empty lines. -/
def Buffers.start (mlen : Nat) : Buffers := ⟨[], mlen, [], mlen⟩

/-- A nick that is on goes on its line.  A full line is sent first. -/
def putOn (x mlen : Nat) (s : Net) (b : Buffers) (who : Bytes × Bytes × Bytes) : Net × Buffers :=
  let arglen := who.1.length + who.2.1.length + who.2.2.length + 2
  if b.onlen + arglen + 1 ≥ 509 then
    (s.send x (.online b.onbuf), { b with onbuf := [who], onlen := mlen + arglen })
  else
    (s, { b with onbuf := b.onbuf ++ [who]
                 onlen := (if b.onlen ≠ mlen then b.onlen + 1 else b.onlen) + arglen })

/-- A nick that is off goes on its line.  A full line is sent first. -/
def putOff (x mlen : Nat) (s : Net) (b : Buffers) (nick : Bytes) : Net × Buffers :=
  if b.offlen + nick.length + 1 ≥ 509 then
    (s.send x (.offline b.offbuf), { b with offbuf := [nick], offlen := mlen + nick.length })
  else
    (s, { b with offbuf := b.offbuf ++ [nick]
                 offlen := (if b.offlen ≠ mlen then b.offlen + 1 else b.offlen) + nick.length })

/-- A nick goes on the line for its state. -/
def putStatus (x mlen : Nat) (s : Net) (b : Buffers) (nick : Bytes) : Net × Buffers :=
  match s.findNamedPerson nick with
  | some y => putOn x mlen s b ((s.client y).name, (s.client y).username, (s.client y).host)
  | none => putOff x mlen s b nick

/-- The line of nicks that are on is sent, if it has any. -/
def flushOn (x mlen : Nat) (s : Net) (b : Buffers) : Net :=
  if b.onlen ≠ mlen then s.send x (.online b.onbuf) else s

/-- The line of nicks that are off is sent, if it has any. -/
def flushOff (x mlen : Nat) (s : Net) (b : Buffers) : Net :=
  if b.offlen ≠ mlen then s.send x (.offline b.offbuf) else s

/-- A client and an entry go on each other's lists. -/
def Net.watch (s : Net) (x e : Nat) : Net :=
  { s with users := Function.update s.users e (x :: s.users e)
           monitorList := Function.update s.monitorList x (e :: s.monitorList x) }

/-- The loop of `add_monitor`. -/
def addMonitorLoop (x mlen : Nat) : Net → Buffers → List (Bytes × Bytes) → Net
  | s, b, [] => flushOff x mlen (flushOn x mlen s b) b
  | s, b, (name, rest) :: l =>
    if name.length > nickLen - 1 then addMonitorLoop x mlen s b l
    else if (s.monitorList x).length ≥ s.maxMonitor then
      (flushOff x mlen (flushOn x mlen s b) b).send x
        (.listFull s.maxMonitor ((name ++ 44 :: rest).take 99))
    else if x ∈ (s.findMonitorAdd name).1.users (s.findMonitorAdd name).2 then
      addMonitorLoop x mlen (s.findMonitorAdd name).1 b l
    else
      addMonitorLoop x mlen
        (putStatus x mlen ((s.findMonitorAdd name).1.watch x (s.findMonitorAdd name).2) b name).1
        (putStatus x mlen ((s.findMonitorAdd name).1.watch x (s.findMonitorAdd name).2) b name).2 l

/-- `add_monitor`. -/
def Net.addMonitor (s : Net) (x : Nat) (nicks : Bytes) : Net :=
  addMonitorLoop x (s.headLength x) s (Buffers.start (s.headLength x)) (tokens nicks.length nicks)

/-- A name in the loop of `del_monitor`. -/
def Net.delName (x : Nat) (s : Net) (name : Bytes) : Net :=
  match s.findMonitor name with
  | none => s
  | some e => (s.unwatch x e).setMonitorList x ((s.monitorList x).erase e)

/-- `del_monitor`. -/
def Net.delMonitor (s : Net) (x : Nat) (nicks : Bytes) : Net :=
  if s.monitorList x = [] then s
  else ((tokens nicks.length nicks).map Prod.fst).foldl (Net.delName x) s

/-- The loop of `list_monitor`, with the names on the line and its length. -/
def listLoop (x mlen : Nat) : Net → List Bytes → Nat → List Bytes → Net
  | s, buf, _, [] => s.send x (.list buf)
  | s, buf, len, name :: l =>
    if len + name.length + 1 ≥ 509 then
      listLoop x mlen (s.send x (.list buf)) [name] (mlen + name.length) l
    else
      listLoop x mlen s (buf ++ [name]) ((if len ≠ mlen then len + 1 else len) + name.length) l

/-- `list_monitor`. -/
def Net.listMonitor (s : Net) (x : Nat) : Net :=
  if s.monitorList x = [] then s.send x .endOfList
  else
    (listLoop x (s.headLength x) s [] (s.headLength x) ((s.monitorList x).map s.entryName)).send x
      .endOfList

/-- The loop of `show_monitor_status`. -/
def statusLoop (x mlen : Nat) : Net → Buffers → List Bytes → Net
  | s, b, [] => flushOff x mlen (flushOn x mlen s b) b
  | s, b, name :: l =>
    statusLoop x mlen (putStatus x mlen s b name).1 (putStatus x mlen s b name).2 l

/-- `show_monitor_status`. -/
def Net.showMonitorStatus (s : Net) (x : Nat) : Net :=
  statusLoop x (s.headLength x) s (Buffers.start (s.headLength x))
    ((s.monitorList x).map s.entryName)

/-- `cleanup_monitor`: entries without users leave their chains. -/
def Net.cleanupMonitor (s : Net) : Net :=
  { s with monitorTable := fun h => (s.monitorTable h).filter fun e => s.users e != [] }

/-- `m_monitor`, by the first byte of its first argument. -/
def Net.mMonitor (s : Net) (x : Nat) (command : UInt8) (nicks : Option Bytes) : Net :=
  if command = 43 then
    match nicks with
    | none => s.send x .needMoreParams
    | some nicks => if nicks = [] then s.send x .needMoreParams else s.addMonitor x nicks
  else if command = 45 then
    match nicks with
    | none => s.send x .needMoreParams
    | some nicks => if nicks = [] then s.send x .needMoreParams else s.delMonitor x nicks
  else if command = 67 ∨ command = 99 then s.clearMonitor x
  else if command = 76 ∨ command = 108 then s.listMonitor x
  else if command = 83 ∨ command = 115 then s.showMonitorStatus x
  else s

-- ============================================================================
-- Nicks come and go
-- ============================================================================

/-- A client moves to another name in the table of names. -/
def Net.rename (s : Net) (x : Nat) (nick : Bytes) : Net :=
  { s with client := Function.update s.client x ((s.client x).setName nick)
           clientTable := x :: s.clientTable.erase x }

/-- `register_local_user`, once the client is let in. -/
def Net.registerLocalUser (s : Net) (x : Nat) (username host : Bytes) : Net :=
  (s.modify x fun c =>
    { c with username := username, host := host, registered := true }).monitorSignon x

/-- `register_client`: a user of another server. -/
def Net.registerClient (s : Net) (x : Nat) (nick username host : Bytes) : Net :=
  { s with client := Function.update s.client x ⟨nick, username, host, true, false⟩
           clientTable := x :: s.clientTable }.monitorSignon x

/-- `change_local_nick` and `change_remote_nick`. -/
def Net.changeNick (s : Net) (x : Nat) (nick : Bytes) : Net :=
  if sameNick (s.client x).name nick then s.rename x nick
  else ((s.monitorSignoff x).rename x nick).monitorSignon x

/-- A client leaves the table of names and is a client no more. -/
def Net.leave (s : Net) (x : Nat) : Net :=
  { s with client := Function.update s.client x (s.client x).gone
           clientTable := s.clientTable.erase x }

/-- `exit_unknown_client`, `exit_remote_client` and `exit_local_client`. -/
def Net.exitClient (s : Net) (x : Nat) : Net :=
  if (s.client x).registered then
    if (s.client x).myConnect then ((s.monitorSignoff x).leave x).clearMonitor x
    else (s.monitorSignoff x).leave x
  else s.leave x

/-- `me_rsfnc`, once it has found a local user to rename. -/
def Net.forceNick (s : Net) (x : Nat) (nick : Bytes) : Net :=
  match s.findNamedClient nick with
  | some y =>
    if y = x then s
    else (((s.exitClient y).monitorSignoff x).rename x nick).monitorSignon x
  | none => ((s.monitorSignoff x).rename x nick).monitorSignon x

-- ============================================================================
-- Events
-- ============================================================================

/-- What can happen. -/
inductive Event
  | connect (x : Nat)
  | initialNick (x : Nat) (nick : Bytes)
  | register (x : Nat) (username host : Bytes)
  | introduce (x : Nat) (nick username host : Bytes)
  | nick (x : Nat) (nick : Bytes)
  | rsfnc (x : Nat) (nick : Bytes)
  | exit (x : Nat)
  | monitor (x : Nat) (command : UInt8) (nicks : Option Bytes)
  | cleanup

/-- A nick that is not empty and that no other client has. -/
def Net.free (s : Net) (x : Nat) (nick : Bytes) : Bool :=
  nick != [] && s.clientTable.all fun y => y == x || !sameNick (s.client y).name nick

/-- A client of this server, as it is after its connection. -/
def Net.connect (s : Net) (x : Nat) : Net := s.modify x fun _ => ⟨[], [], [], false, true⟩

/-- An event in a state in which it can happen.  A new nick is free. -/
def Net.step (s : Net) : Event → Option Net
  | .connect x => if x ∈ s.clientTable then none else some (s.connect x)
  | .initialNick x nick =>
    if (s.client x).myConnect && !(s.client x).registered && s.free x nick
    then some (s.rename x nick) else none
  | .register x username host =>
    if (s.client x).myConnect && !(s.client x).registered && s.clientTable.contains x
    then some (s.registerLocalUser x username host) else none
  | .introduce x nick username host =>
    if !s.clientTable.contains x && s.free x nick
    then some (s.registerClient x nick username host) else none
  | .nick x nick =>
    if (s.client x).registered && s.free x nick then some (s.changeNick x nick) else none
  | .rsfnc x nick =>
    if (s.client x).registered && (s.client x).myConnect && nick != []
    then some (s.forceNick x nick) else none
  | .exit x => some (s.exitClient x)
  | .monitor x command nicks =>
    if (s.client x).registered && (s.client x).myConnect
    then some (s.mMonitor x command nicks) else none
  | .cleanup => some s.cleanupMonitor

/-- No client and no entry. -/
def Net.start (me : Bytes) (maxMonitor : Nat) : Net where
  me := me
  maxMonitor := maxMonitor
  client := fun _ => ⟨[], [], [], false, false⟩
  clientTable := []
  monitorList := fun _ => []
  entryName := fun _ => []
  users := fun _ => []
  monitorTable := fun _ => []
  nextEntry := 0
  sent := []

end Bluebox.Monitor
