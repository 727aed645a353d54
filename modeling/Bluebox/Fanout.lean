/-
  Bluebox.Fanout

  Messages to channels: `sendto_channel_flags` and `sendto_common_channels_local` of
  `libratboxcore/send.c`.

  Both walk member lists in which a link can come up many times, and mark the links
  they have served with the value of a counter.  A link can have an I/O error, have a
  full queue or break when it is written to; then it is marked with an error.
-/
import Mathlib.Logic.Function.Basic
import Bluebox.Lib.CString
import Bluebox.Lib.Once

namespace Bluebox.Fanout

open Bluebox.Lib

-- ============================================================================
-- Data
-- ============================================================================

/-- `STAT_ME`, `STAT_SERVER` and `STAT_CLIENT`. -/
inductive Status
  | me
  | server
  | client
deriving DecidableEq, Repr

/-- The fields of `struct Client` that are read here.  `link` is `from`, and `channel`
    is the list of `user`. -/
structure Client where
  name : Bytes
  username : Bytes
  host : Bytes
  virthost : Bytes
  id : Bytes
  status : Status
  myConnect : Bool
  link : Nat
  deaf : Bool
  cloaked : Bool
  capChw : Bool
  channel : List Nat

/-- `struct membership`. -/
structure Member where
  client : Nat
  flags : Nat
deriving DecidableEq

/-- `struct Channel`. -/
structure Channel where
  members : List Member
  locmembers : List Member

/-- The clients and the channels, and how the links take a line: `full` is a send queue
    over its limit, `breaks` an error on writing. -/
structure Net where
  client : Nat → Client
  channel : Nat → Channel
  full : Nat → Bool
  breaks : Nat → Bool

/-- What the functions change.  `sent` is what has been put on the queues, `ghosted` is
    who has been killed. -/
structure Links where
  serial : Nat → Nat
  ioError : Nat → Bool
  currentSerial : Nat
  sent : List (Nat × Bytes)
  ghosted : List Nat

/-- What has been put on the queue of a client. -/
def Links.sentTo (s : Links) (x : Nat) : List Bytes := (s.sent.filter fun y => y.1 == x).map Prod.snd

/-- `MyClient`. -/
def Net.myClient (net : Net) (x : Nat) : Bool :=
  (net.client x).myConnect && (net.client x).status == .client

/-- `use_id`. -/
def Client.useId (c : Client) : Bytes := if c.id ≠ [] then c.id else c.name

-- ============================================================================
-- Lines
-- ============================================================================

/-- `SetIOError`. -/
def Links.setIOError (s : Links) (x : Nat) : Links := { s with ioError := Function.update s.ioError x true }

/-- A line goes on a queue. -/
def Links.put (s : Links) (x : Nat) (line : Bytes) : Links := { s with sent := s.sent ++ [(x, line)] }

/-- `send_linebuf`. -/
def Net.sendLinebuf (net : Net) (s : Links) (dest : Nat) (line : Bytes) : Links :=
  if (net.client dest).status = .me then s
  else if (net.client dest).myConnect = false ∨ s.ioError dest = true then s
  else if net.full dest then s.setIOError dest
  else if net.breaks dest then (s.put dest line).setIOError dest
  else s.put dest line

/-- `send_rb_linebuf_remote`, with its test for a fake direction. -/
def Net.sendLinebufRemote (net : Net) (s : Links) (target source : Nat) (line : Bytes) : Links :=
  let dest := (net.client target).link
  if net.myClient source = false ∧ (net.client dest).status = .client ∧ dest = (net.client source).link then
    if (net.client source).status = .server then s else { s with ghosted := s.ghosted ++ [dest] }
  else net.sendLinebuf s dest line

/-- The line for local members. -/
def Net.localLine (net : Net) (source : Nat) (text : Bytes) : Bytes :=
  let c := net.client source
  if c.status = .server then [58] ++ c.name ++ [32] ++ strlcpy text 512
  else [58] ++ c.name ++ [33] ++ c.username ++ [64] ++ (if c.cloaked then c.virthost else c.host) ++
    [32] ++ strlcpy text 512

/-- The line for a server link, by id if the link has one. -/
def Net.remoteLine (net : Net) (source link : Nat) (text : Bytes) : Bytes :=
  let c := net.client source
  [58] ++ (if (net.client link).id ≠ [] then c.useId else c.name) ++ [32] ++ strlcpy text 512

-- ============================================================================
-- sendto_channel_flags
-- ============================================================================

/-- `++current_serial`. -/
def Links.nextSerial (s : Links) : Links := { s with currentSerial := (s.currentSerial + 1) % 2 ^ 32 }

/-- A link is marked with the counter. -/
def Links.mark (s : Links) (x : Nat) : Links :=
  { s with serial := Function.update s.serial x s.currentSerial }

/-- One member in the walk of `sendto_channel_flags`. -/
def Net.toMember (net : Net) (one : Option Nat) (type source : Nat) (text : Bytes) (s : Links)
    (ms : Member) : Links :=
  let target := net.client ms.client
  if s.ioError target.link = true ∨ some target.link = one then s
  else if type ≠ 0 ∧ ms.flags &&& type = 0 then s
  else if target.deaf then s
  else if net.myClient ms.client then net.sendLinebuf s ms.client (net.localLine source text)
  else if type ≠ 0 ∧ (net.client target.link).capChw = false then s
  else if s.serial target.link ≠ s.currentSerial then
    (net.sendLinebufRemote s ms.client source (net.remoteLine source target.link text)).mark target.link
  else s

/-- `sendto_channel_flags`. -/
def Net.sendtoChannelFlags (net : Net) (s : Links) (one : Option Nat) (type source ch : Nat)
    (text : Bytes) : Links :=
  (net.channel ch).members.foldl (net.toMember one type source text) s.nextSerial

-- ============================================================================
-- sendto_common_channels_local
-- ============================================================================

/-- One member in the walks of `sendto_common_channels_local`. -/
def Net.toCommon (net : Net) (line : Bytes) (s : Links) (ms : Member) : Links :=
  if s.ioError ms.client = true ∨ s.serial ms.client = s.currentSerial then s
  else net.sendLinebuf (s.mark ms.client) (net.client ms.client).link line

/-- `sendto_common_channels_local`. -/
def Net.sendtoCommonChannelsLocal (net : Net) (s : Links) (user : Nat) (line : Bytes) : Links :=
  let s := (net.client user).channel.foldl
    (fun s ch => (net.channel ch).locmembers.foldl (net.toCommon line) s) s.nextSerial
  if (net.client user).myConnect = true ∧ s.serial user ≠ s.currentSerial then
    net.sendLinebuf s (net.client user).link line
  else s

-- ============================================================================
-- One line to one link
-- ============================================================================

/-- At most one line has gone to a link, and nothing else has happened. -/
structure Sends (net : Net) (s s' : Links) (x : Nat) (line : Bytes) : Prop where
  current : s'.currentSerial = s.currentSerial
  serial : ∀ y, y ≠ x → s'.serial y = s.serial y
  errors : ∀ y, y ≠ x → s'.ioError y = s.ioError y
  stays : ∀ y, s.ioError y = true → s'.ioError y = true
  sent : s'.sent = s.sent ++ if net.full x then [] else [(x, line)]

theorem Links.setIOError_stays {s : Links} {y : Nat} (x : Nat) (h : s.ioError y = true) :
    (s.setIOError x).ioError y = true := by
  by_cases heq : y = x
  · rw [heq]
    exact Function.update_self ..
  · exact (Function.update_of_ne heq ..).trans h

variable {net : Net} {s s' : Links} {x : Nat} {line : Bytes}

/-- `send_linebuf` to a connection without an error. -/
theorem sendLinebuf_sends (hstatus : (net.client x).status ≠ .me)
    (hconnect : (net.client x).myConnect = true) (herror : s.ioError x = false) (line : Bytes) :
    Sends net s (net.sendLinebuf s x line) x line ∧
      (net.sendLinebuf s x line).serial = s.serial := by
  have hopen : ¬ ((net.client x).myConnect = false ∨ s.ioError x = true) := by
    rw [hconnect, herror]
    decide
  unfold Net.sendLinebuf
  rw [if_neg hstatus, if_neg hopen]
  by_cases hfull : net.full x = true
  · rw [if_pos hfull]
    refine ⟨⟨rfl, fun _ _ => rfl, fun y hy => Function.update_of_ne hy .., fun y hy => ?_, ?_⟩, rfl⟩
    · exact Links.setIOError_stays x hy
    · rw [if_pos hfull]
      exact (List.append_nil _).symm
  · rw [if_neg hfull]
    by_cases hbreaks : net.breaks x = true
    · rw [if_pos hbreaks]
      refine ⟨⟨rfl, fun _ _ => rfl, fun y hy => Function.update_of_ne hy .., fun y hy => ?_, ?_⟩, rfl⟩
      · exact Links.setIOError_stays x hy
      · rw [if_neg hfull]
        rfl
    · rw [if_neg hbreaks]
      refine ⟨⟨rfl, fun _ _ => rfl, fun _ _ => rfl, fun _ hy => hy, ?_⟩, rfl⟩
      rw [if_neg hfull]
      rfl

theorem Sends.mark (h : Sends net s s' x line) : Sends net s (s'.mark x) x line :=
  ⟨h.current, fun y hy => (Function.update_of_ne hy ..).trans (h.serial y hy), h.errors, h.stays, h.sent⟩

theorem Sends.mark_left (h : Sends net (s.mark x) s' x line) : Sends net s s' x line :=
  ⟨h.current, fun y hy => (h.serial y hy).trans (Function.update_of_ne hy ..), h.errors, h.stays, h.sent⟩

-- ============================================================================
-- A walk
-- ============================================================================

/-- A walk has served some links.  Those of the kind `K` bear the mark. -/
structure Walk (net : Net) (line : Nat → Bytes) (K : Nat → Prop) (s₀ s : Links) (served : List Nat) :
    Prop where
  current : s.currentSerial = s₀.currentSerial
  serial_le : ∀ x, s.serial x ≤ s.currentSerial
  marked : ∀ x, K x → (s.serial x = s.currentSerial ↔ x ∈ served)
  errors : ∀ x, x ∉ served → s.ioError x = s₀.ioError x
  stays : ∀ x, s₀.ioError x = true → s.ioError x = true
  sent : s.sent = s₀.sent ++ (served.reverse.filter fun x => !net.full x).map fun x => (x, line x)

variable {lines : Nat → Bytes} {K : Nat → Prop} {s₀ : Links} {served : List Nat}

/-- One more link has been served. -/
theorem Walk.serve (h : Walk net lines K s₀ s served) (hs : Sends net s s' x (lines x))
    (hle : s'.serial x ≤ s'.currentSerial) (hmark : K x → s'.serial x = s'.currentSerial) :
    Walk net lines K s₀ s' (x :: served) := by
  refine ⟨hs.current.trans h.current, fun y => ?_, fun y hy => ?_, fun y hy => ?_, fun y hy => ?_, ?_⟩
  · by_cases heq : y = x
    · rw [heq]
      exact hle
    · rw [hs.serial y heq, hs.current]
      exact h.serial_le y
  · by_cases heq : y = x
    · subst heq
      exact ⟨fun _ => List.mem_cons_self, fun _ => hmark hy⟩
    · rw [hs.serial y heq, hs.current, h.marked y hy, List.mem_cons]
      exact ⟨Or.inr, fun hmem => hmem.resolve_left heq⟩
  · rw [List.mem_cons, not_or] at hy
    rw [hs.errors y hy.1]
    exact h.errors y hy.2
  · exact hs.stays y (h.stays y hy)
  · rw [hs.sent, h.sent, List.reverse_cons, List.filter_append, List.map_append, List.append_assoc]
    cases hfull : net.full x with
    | true => rw [if_pos rfl, List.filter_cons, hfull]; rfl
    | false => rw [if_neg Bool.false_ne_true, List.filter_cons, hfull]; rfl

/-- What the links have been sent after a walk. -/
theorem Walk.sentTo (h : Walk net lines K s₀ s served) (hnodup : served.Nodup) (x : Nat) :
    (x ∈ served ∧ net.full x = false → s.sentTo x = s₀.sentTo x ++ [lines x]) ∧
    (¬ (x ∈ served ∧ net.full x = false) → s.sentTo x = s₀.sentTo x) := by
  unfold Links.sentTo
  rw [h.sent, List.filter_append, List.map_append, List.filter_map, List.map_map]
  have hnodup' : (served.reverse.filter fun x => !net.full x).Nodup :=
    (List.nodup_reverse.mpr hnodup).filter _
  have hkeys : ((served.reverse.filter fun x => !net.full x).filter
      ((fun y => y.1 == x) ∘ fun x => (x, lines x)))
      = if x ∈ served.reverse.filter fun x => !net.full x then [x] else [] :=
    filter_eq_of_nodup hnodup' x
  have hmem : x ∈ (served.reverse.filter fun x => !net.full x) ↔ x ∈ served ∧ net.full x = false := by
    rw [List.mem_filter, List.mem_reverse, Bool.not_eq_true']
  rw [hkeys]
  constructor
  · intro hx
    rw [if_pos (hmem.mpr hx)]
    rfl
  · intro hx
    rw [if_neg (mt hmem.mp hx)]
    exact List.append_nil _

-- ============================================================================
-- Consistent lists
-- ============================================================================

/-- The marks are values that the counter has had. -/
def Links.Stamped (s : Links) : Prop := ∀ x, s.serial x ≤ s.currentSerial

/-- The membership lists agree with each other and with the clients. -/
structure Net.Consistent (net : Net) : Prop where
  local_link : ∀ x, (net.client x).myConnect = true → (net.client x).link = x
  remote_link : ∀ x, (net.client x).status = .client → (net.client x).myConnect = false →
    (net.client (net.client x).link).status = .server ∧
      (net.client (net.client x).link).myConnect = true
  member_status : ∀ ch, ∀ m ∈ (net.channel ch).members, (net.client m.client).status = .client
  nodup : ∀ ch, ((net.channel ch).members.map Member.client).Nodup
  locmembers : ∀ ch m, m ∈ (net.channel ch).locmembers ↔
    m ∈ (net.channel ch).members ∧ (net.client m.client).myConnect = true
  channels : ∀ x ch, ch ∈ (net.client x).channel ↔ ∃ m ∈ (net.channel ch).members, m.client = x

/-- The walk starts with a value of the counter that no link bears. -/
theorem Walk.start (net : Net) (lines : Nat → Bytes) (K : Nat → Prop) (hs : s.Stamped)
    (hserial : s.currentSerial + 1 < 2 ^ 32) : Walk net lines K s.nextSerial s.nextSerial [] := by
  have hcurrent : s.nextSerial.currentSerial = s.currentSerial + 1 := Nat.mod_eq_of_lt hserial
  refine ⟨rfl, fun x => ?_, fun x _ => ⟨fun heq => ?_, fun hmem => ?_⟩, fun _ _ => rfl, fun _ h => h, ?_⟩
  · rw [hcurrent]
    exact Nat.le_succ_of_le (hs x)
  · rw [hcurrent] at heq
    have hle : s.nextSerial.serial x ≤ s.currentSerial := hs x
    omega
  · cases hmem
  · exact (List.append_nil _).symm

-- ============================================================================
-- sendto_channel_flags delivers once
-- ============================================================================

/-- A member that a message of this type is for. -/
def Net.Hears (net : Net) (type : Nat) (m : Member) : Prop :=
  (type = 0 ∨ m.flags &&& type ≠ 0) ∧ (net.client m.client).deaf = false

/-- A member on behalf of whom a link is served. -/
def Net.Wanted (net : Net) (s : Links) (one : Option Nat) (type : Nat) (m : Member) : Prop :=
  s.ioError (net.client m.client).link = false ∧ some (net.client m.client).link ≠ one ∧
    net.Hears type m ∧
    (net.myClient m.client = true ∨ type = 0 ∨
      (net.client (net.client m.client).link).capChw = true)

instance (net : Net) (s : Links) (one : Option Nat) (type : Nat) (m : Member) :
    Decidable (net.Wanted s one type m) := by
  unfold Net.Wanted Net.Hears
  infer_instance

section ChannelFlags

variable {one : Option Nat} {type source : Nat} {text : Bytes} {m : Member}

/-- A member that passed the checks in front is wanted if its way is open. -/
theorem wanted_of_passed
    (herror : ¬ (s.ioError (net.client m.client).link = true ∨ some (net.client m.client).link = one))
    (htype : ¬ (type ≠ 0 ∧ m.flags &&& type = 0)) (hdeaf : ¬ (net.client m.client).deaf = true)
    (hway : net.myClient m.client = true ∨ type = 0 ∨
      (net.client (net.client m.client).link).capChw = true) : net.Wanted s one type m := by
  refine ⟨?_, ?_, ⟨?_, ?_⟩, hway⟩
  · exact Bool.eq_false_iff.mpr fun herr => herror (Or.inl herr)
  · exact fun hone => herror (Or.inr hone)
  · by_cases hzero : type = 0
    · exact Or.inl hzero
    · exact Or.inr fun hflags => htype ⟨hzero, hflags⟩
  · exact Bool.eq_false_iff.mpr hdeaf

theorem toMember_of_not_wanted (h : ¬ net.Wanted s one type m) :
    net.toMember one type source text s m = s := by
  unfold Net.toMember
  dsimp only
  split
  · rfl
  split
  · rfl
  split
  · rfl
  split
  · next herror htype hdeaf hlocal =>
    exact absurd (wanted_of_passed herror htype hdeaf (Or.inl hlocal)) h
  split
  · rfl
  split
  · next herror htype hdeaf _ hchw _ =>
    refine absurd (wanted_of_passed herror htype hdeaf (Or.inr ?_)) h
    by_cases hzero : type = 0
    · exact Or.inl hzero
    · exact Or.inr (Bool.eq_true_of_not_eq_false fun hcap => hchw ⟨hzero, hcap⟩)
  · rfl

theorem toMember_of_wanted (h : net.Wanted s one type m) :
    net.toMember one type source text s m =
      if net.myClient m.client then net.sendLinebuf s m.client (net.localLine source text)
      else if s.serial (net.client m.client).link ≠ s.currentSerial then
        (net.sendLinebufRemote s m.client source
          (net.remoteLine source (net.client m.client).link text)).mark (net.client m.client).link
      else s := by
  obtain ⟨herror, hone, ⟨htype, hdeaf⟩, hchw⟩ := h
  unfold Net.toMember
  dsimp only
  have hopen : ¬ (s.ioError (net.client m.client).link = true ∨ some (net.client m.client).link = one) := by
    rw [herror, not_or]
    exact ⟨Bool.false_ne_true, hone⟩
  have hflags : ¬ (type ≠ 0 ∧ m.flags &&& type = 0) := fun hno => htype.elim hno.1 fun h => h hno.2
  rw [if_neg hopen, if_neg hflags, if_neg (by rw [hdeaf]; exact Bool.false_ne_true)]
  by_cases hlocal : net.myClient m.client = true
  · rw [if_pos hlocal, if_pos hlocal]
  · rw [if_neg hlocal, if_neg hlocal, if_neg]
    rintro ⟨hzero, hcap⟩
    obtain hchw | hchw | hchw := hchw
    · exact hlocal hchw
    · exact hzero hchw
    · rw [hcap] at hchw
      exact Bool.false_ne_true hchw

/-- Who gets a copy of a message to a channel: the local members it is for, and the
    server links with such a member behind them, if they take a line. -/
def Net.ChannelGets (net : Net) (s : Links) (one : Option Nat) (type ch x : Nat) : Prop :=
  s.ioError x = false ∧ net.full x = false ∧ some x ≠ one ∧
    ∃ m ∈ (net.channel ch).members, net.Hears type m ∧
      (net.myClient x = true ∧ m.client = x ∨
        (net.client x).status = .server ∧ (net.client m.client).myConnect = false ∧
          (net.client m.client).link = x ∧ (type = 0 ∨ (net.client x).capChw = true))

/-- The line for a link. -/
def Net.channelLine (net : Net) (source : Nat) (text : Bytes) (x : Nat) : Bytes :=
  if net.myClient x then net.localLine source text else net.remoteLine source x text

/-- The walk over the members of a channel. -/
def Net.MemberWalk (net : Net) (source : Nat) (text : Bytes) (s₀ s : Links) (served : List Nat)
    (rest : List Member) : Prop :=
  Walk net (net.channelLine source text) (fun x => (net.client x).status = .server) s₀ s served ∧
    (∀ m ∈ rest, (net.client m.client).status = .client) ∧ (rest.map Member.client).Nodup ∧
    ∀ m ∈ rest, net.myClient m.client = true → m.client ∉ served

variable {rest : List Member}

theorem Net.MemberWalk.tail (h : net.MemberWalk source text s₀ s served (m :: rest)) :
    net.MemberWalk source text s₀ s served rest :=
  ⟨h.1, (List.forall_mem_cons.mp h.2.1).2, (List.nodup_cons.mp h.2.2.1).2,
    (List.forall_mem_cons.mp h.2.2.2).2⟩

/-- A link that has not been served has the error it had at the start. -/
theorem Net.Wanted.of_not_served (h : net.Wanted s₀ one type m)
    (hwalk : Walk net lines K s₀ s served) (hnot : (net.client m.client).link ∉ served) :
    net.Wanted s one type m :=
  ⟨(hwalk.errors _ hnot).trans h.1, h.2⟩

theorem Net.Wanted.start (h : net.Wanted s one type m) (hwalk : Walk net lines K s₀ s served) :
    net.Wanted s₀ one type m := by
  refine ⟨Bool.eq_false_iff.mpr fun herror => ?_, h.2⟩
  exact Bool.eq_false_iff.mp h.1 (hwalk.stays _ herror)

theorem myClient_eq (net : Net) (hstatus : (net.client x).status = .client) :
    net.myClient x = (net.client x).myConnect := by
  unfold Net.myClient
  rw [hstatus]
  exact Bool.and_true _

/-- The walk serves the link of a wanted member that has not been served. -/
theorem Net.MemberWalk.serve (hnet : net.Consistent)
    (h : net.MemberWalk source text s₀ s served (m :: rest)) (hwanted : net.Wanted s₀ one type m)
    (hnot : (net.client m.client).link ∉ served) :
    net.MemberWalk source text s₀ (net.toMember one type source text s m)
      ((net.client m.client).link :: served) rest := by
  obtain ⟨hwalk, hstatus, hnodup, hfresh⟩ := h
  obtain ⟨hm, hstatus⟩ := List.forall_mem_cons.mp hstatus
  obtain ⟨hm', hnodup⟩ := List.nodup_cons.mp hnodup
  obtain ⟨-, hfresh⟩ := List.forall_mem_cons.mp hfresh
  have hnow := hwanted.of_not_served hwalk hnot
  have hlocal := myClient_eq net hm
  rw [toMember_of_wanted hnow]
  cases hconnect : (net.client m.client).myConnect with
  | true =>
    rw [hconnect] at hlocal
    have hlink := hnet.local_link m.client hconnect
    have herror : s.ioError m.client = false := hlink ▸ hnow.1
    have hme : (net.client m.client).status ≠ .me := by
      rw [hm]
      exact Status.noConfusion
    obtain ⟨hsends, hserial⟩ := sendLinebuf_sends hme hconnect herror (net.localLine source text)
    rw [if_pos hlocal, hlink]
    refine ⟨hwalk.serve (x := m.client) ?_ ?_ fun hserver => ?_, hstatus, hnodup, fun m' hmem hlocal' => ?_⟩
    · unfold Net.channelLine
      rw [if_pos hlocal]
      exact hsends
    · rw [hserial, hsends.current]
      exact hwalk.serial_le m.client
    · rw [hm] at hserver
      cases hserver
    · rw [List.mem_cons, not_or]
      refine ⟨fun heq => hm' ?_, hfresh m' hmem hlocal'⟩
      rw [← heq]
      exact List.mem_map_of_mem hmem
  | false =>
    rw [hconnect] at hlocal
    obtain ⟨hserver, hlinked⟩ := hnet.remote_link m.client hm hconnect
    have hnotlocal : net.myClient (net.client m.client).link = false := by
      unfold Net.myClient
      rw [hserver]
      exact Bool.and_false _
    have hserial : s.serial (net.client m.client).link ≠ s.currentSerial := fun heq =>
      hnot ((hwalk.marked _ hserver).mp heq)
    have hme : (net.client (net.client m.client).link).status ≠ .me := by
      rw [hserver]
      exact Status.noConfusion
    have hdir : ¬ (net.myClient source = false ∧
        (net.client (net.client m.client).link).status = .client ∧
        (net.client m.client).link = (net.client source).link) := by
      rw [hserver]
      exact fun hfake => Status.noConfusion hfake.2.1
    obtain ⟨hsends, -⟩ := sendLinebuf_sends hme hlinked hnow.1
      (net.remoteLine source (net.client m.client).link text)
    rw [if_neg (by rw [hlocal]; exact Bool.false_ne_true), if_pos hserial]
    unfold Net.sendLinebufRemote
    dsimp only
    rw [if_neg hdir]
    refine ⟨hwalk.serve (x := (net.client m.client).link) ?_ ?_ fun _ => ?_, hstatus, hnodup,
      fun m' hmem hlocal' => ?_⟩
    · unfold Net.channelLine
      rw [if_neg (by rw [hnotlocal]; exact Bool.false_ne_true)]
      exact hsends.mark
    · exact Nat.le_of_eq (Function.update_self ..)
    · exact Function.update_self ..
    · rw [List.mem_cons, not_or]
      refine ⟨fun heq => ?_, hfresh m' hmem hlocal'⟩
      rw [heq, hnotlocal] at hlocal'
      cases hlocal'

/-- The walk passes over the other members. -/
theorem Net.MemberWalk.pass (hnet : net.Consistent) (one : Option Nat) (type : Nat)
    (h : net.MemberWalk source text s₀ s served (m :: rest))
    (hserved : net.Wanted s₀ one type m → (net.client m.client).link ∈ served) :
    net.toMember one type source text s m = s := by
  by_cases hwanted : net.Wanted s one type m
  · have hlink := hserved (hwanted.start h.1)
    have hm := (List.forall_mem_cons.mp h.2.1).1
    have hlocal := myClient_eq net hm
    rw [toMember_of_wanted hwanted]
    cases hconnect : (net.client m.client).myConnect with
    | true =>
      rw [hnet.local_link m.client hconnect] at hlink
      exact absurd hlink ((List.forall_mem_cons.mp h.2.2.2).1 (hlocal.trans hconnect))
    | false =>
      obtain ⟨hserver, -⟩ := hnet.remote_link m.client hm hconnect
      rw [if_neg (by rw [hlocal, hconnect]; exact Bool.false_ne_true), if_neg]
      exact fun hserial => hserial ((h.1.marked _ hserver).mpr hlink)
  · exact toMember_of_not_wanted hwanted

/-- The links that the walk serves. -/
theorem channelGets_iff (hnet : net.Consistent) {ch : Nat} :
    net.ChannelGets s one type ch x ↔ net.full x = false ∧
      ∃ m ∈ (net.channel ch).members, net.Wanted s one type m ∧ (net.client m.client).link = x := by
  constructor
  · rintro ⟨herror, hfull, hone, m, hm, hhears, ⟨hlocal, rfl⟩ | ⟨hserver, hremote, rfl, hchw⟩⟩
    · have hlink := hnet.local_link m.client (Bool.and_eq_true_iff.mp hlocal).1
      refine ⟨hfull, m, hm, ⟨?_, ?_, hhears, Or.inl hlocal⟩, hlink⟩
      · rw [hlink]
        exact herror
      · rw [hlink]
        exact hone
    · exact ⟨hfull, m, hm, ⟨herror, hone, hhears, Or.inr hchw⟩, rfl⟩
  · rintro ⟨hfull, m, hm, ⟨herror, hone, hhears, hchw⟩, rfl⟩
    refine ⟨herror, hfull, hone, m, hm, hhears, ?_⟩
    have hstatus := hnet.member_status ch m hm
    have hlocal := myClient_eq net hstatus
    cases hconnect : (net.client m.client).myConnect with
    | true =>
      rw [hnet.local_link m.client hconnect]
      exact Or.inl ⟨hlocal.trans hconnect, rfl⟩
    | false =>
      rw [hlocal, hconnect] at hchw
      refine Or.inr ⟨(hnet.remote_link m.client hstatus hconnect).1, rfl, rfl, ?_⟩
      exact hchw.resolve_left Bool.false_ne_true

/-- Everyone who is to get a message to a channel gets it once, and nobody else. -/
theorem sendtoChannelFlags_once (hnet : net.Consistent) (hs : s.Stamped)
    (hserial : s.currentSerial + 1 < 2 ^ 32) (one : Option Nat) (type source ch : Nat) (text : Bytes) :
    (net.sendtoChannelFlags s one type source ch text).Stamped ∧
    ∀ x, (net.ChannelGets s one type ch x → (net.sendtoChannelFlags s one type source ch text).sentTo x
        = s.sentTo x ++ [net.channelLine source text x]) ∧
      (¬ net.ChannelGets s one type ch x →
        (net.sendtoChannelFlags s one type source ch text).sentTo x = s.sentTo x) := by
  have hstart : net.MemberWalk source text s.nextSerial s.nextSerial [] (net.channel ch).members :=
    ⟨Walk.start net _ _ hs hserial, hnet.member_status ch, hnet.nodup ch, fun _ _ _ => List.not_mem_nil⟩
  obtain ⟨hwalk, -⟩ := foldl_once
    (fun s' served m rest h hwanted hnot =>
      Net.MemberWalk.serve (m := m) hnet h (of_decide_eq_true hwanted) hnot)
    (fun s' served m rest h hserved => by
      have hpass := h.pass hnet one type fun hwanted => hserved (decide_eq_true hwanted)
      rw [hpass]
      exact h.tail)
    (net.channel ch).members hstart
  rw [List.append_nil] at hwalk
  refine ⟨hwalk.serial_le, fun x => ?_⟩
  have hgets : net.ChannelGets s one type ch x ↔ x ∈ (once [] (((net.channel ch).members.filter
      fun m => decide (net.Wanted s.nextSerial one type m)).map
        fun m => (net.client m.client).link)).reverse ∧ net.full x = false := by
    rw [channelGets_iff hnet, List.mem_reverse, mem_once_filter, and_comm]
    simp only [decide_eq_true_iff]
    rfl
  rw [hgets]
  exact hwalk.sentTo (List.nodup_reverse.mpr (nodup_once _ [])) x

end ChannelFlags

-- ============================================================================
-- sendto_common_channels_local delivers once
-- ============================================================================

/-- Who gets a copy of a message about a user: the user and the local users that share a
    channel with it, if they take a line. -/
def Net.CommonGets (net : Net) (s : Links) (user x : Nat) : Prop :=
  s.ioError x = false ∧ net.full x = false ∧ net.myClient x = true ∧
    (x = user ∨ ∃ ch, (∃ m ∈ (net.channel ch).members, m.client = user) ∧
      ∃ m ∈ (net.channel ch).members, m.client = x)

/-- The walk over the local members of the channels of a user. -/
def Net.CommonWalk (net : Net) (line : Bytes) (s₀ s : Links) (served : List Nat)
    (rest : List Member) : Prop :=
  Walk net (fun _ => line) (fun x => net.myClient x = true) s₀ s served ∧
    ∀ m ∈ rest, (net.client m.client).status = .client ∧ (net.client m.client).myConnect = true

section Common

variable {m : Member} {rest : List Member}

theorem Net.CommonWalk.serve (hnet : net.Consistent) (h : net.CommonWalk line s₀ s served (m :: rest))
    (hwanted : s₀.ioError m.client = false) (hnot : m.client ∉ served) :
    net.CommonWalk line s₀ (net.toCommon line s m) (m.client :: served) rest := by
  obtain ⟨hwalk, hlocal⟩ := h
  obtain ⟨⟨hstatus, hconnect⟩, hlocal⟩ := List.forall_mem_cons.mp hlocal
  have hmine : net.myClient m.client = true := (myClient_eq net hstatus).trans hconnect
  have herror : s.ioError m.client = false := (hwalk.errors _ hnot).trans hwanted
  have hserial : ¬ (s.ioError m.client = true ∨ s.serial m.client = s.currentSerial) := by
    rw [herror, not_or]
    exact ⟨Bool.false_ne_true, fun heq => hnot ((hwalk.marked _ hmine).mp heq)⟩
  have hme : (net.client m.client).status ≠ .me := by
    rw [hstatus]
    exact Status.noConfusion
  have hmarked : (s.mark m.client).ioError m.client = false := herror
  obtain ⟨hsends, hsame⟩ := sendLinebuf_sends hme hconnect hmarked line
  unfold Net.toCommon
  rw [if_neg hserial, hnet.local_link m.client hconnect]
  have hself : (net.sendLinebuf (s.mark m.client) m.client line).serial m.client
      = (net.sendLinebuf (s.mark m.client) m.client line).currentSerial := by
    rw [hsame, hsends.current]
    exact Function.update_self ..
  exact ⟨hwalk.serve hsends.mark_left (Nat.le_of_eq hself) fun _ => hself, hlocal⟩

theorem Net.CommonWalk.pass (h : net.CommonWalk line s₀ s served (m :: rest))
    (hserved : s₀.ioError m.client = false → m.client ∈ served) :
    net.CommonWalk line s₀ (net.toCommon line s m) served rest := by
  obtain ⟨hwalk, hlocal⟩ := h
  obtain ⟨⟨hstatus, hconnect⟩, hlocal⟩ := List.forall_mem_cons.mp hlocal
  have hskip : s.ioError m.client = true ∨ s.serial m.client = s.currentSerial := by
    cases herror : s₀.ioError m.client with
    | true => exact Or.inl (hwalk.stays _ herror)
    | false =>
      have hmine : net.myClient m.client = true := (myClient_eq net hstatus).trans hconnect
      exact Or.inr ((hwalk.marked _ hmine).mpr (hserved herror))
  unfold Net.toCommon
  rw [if_pos hskip]
  exact ⟨hwalk, hlocal⟩

/-- The walk over the channels of a user. -/
theorem commonWalk_channels (hnet : net.Consistent) (hs : s.Stamped)
    (hserial : s.currentSerial + 1 < 2 ^ 32) (user : Nat) (line : Bytes) :
    ∃ served : List Nat, served.Nodup ∧
      (∀ x, x ∈ served ↔ s.ioError x = false ∧ net.myClient x = true ∧
        ∃ ch, (∃ m ∈ (net.channel ch).members, m.client = user) ∧
          ∃ m ∈ (net.channel ch).members, m.client = x) ∧
      Walk net (fun _ => line) (fun x => net.myClient x = true) s.nextSerial
        ((net.client user).channel.foldl
          (fun s ch => (net.channel ch).locmembers.foldl (net.toCommon line) s) s.nextSerial) served := by
  have hlocal : ∀ m ∈ (net.client user).channel.flatMap fun ch => (net.channel ch).locmembers,
      (net.client m.client).status = .client ∧ (net.client m.client).myConnect = true := by
    intro m hm
    obtain ⟨ch, -, hm⟩ := List.mem_flatMap.mp hm
    obtain ⟨hm, hconnect⟩ := (hnet.locmembers ch m).mp hm
    exact ⟨hnet.member_status ch m hm, hconnect⟩
  obtain ⟨hwalk, -⟩ := foldl_once
    (fun s' served m rest h hwanted hnot =>
      Net.CommonWalk.serve (m := m) hnet h (of_decide_eq_true hwanted) hnot)
    (fun s' served m rest h hserved =>
      Net.CommonWalk.pass (m := m) h fun hwanted => hserved (decide_eq_true hwanted))
    ((net.client user).channel.flatMap fun ch => (net.channel ch).locmembers)
    (show net.CommonWalk line s.nextSerial s.nextSerial [] _ from
      ⟨Walk.start net (fun _ => line) _ hs hserial, hlocal⟩)
  rw [List.foldl_flatMap, List.append_nil] at hwalk
  refine ⟨_, List.nodup_reverse.mpr (nodup_once _ []), fun x => ?_, hwalk⟩
  rw [List.mem_reverse, mem_once_filter]
  constructor
  · rintro ⟨m, hm, herror, rfl⟩
    obtain ⟨hstatus, hconnect⟩ := hlocal m hm
    obtain ⟨ch, hch, hm⟩ := List.mem_flatMap.mp hm
    refine ⟨of_decide_eq_true herror, (myClient_eq net hstatus).trans hconnect, ch,
      (hnet.channels user ch).mp hch, m, ((hnet.locmembers ch m).mp hm).1, rfl⟩
  · rintro ⟨herror, hmine, ch, huser, m, hm, rfl⟩
    refine ⟨m, List.mem_flatMap.mpr ⟨ch, (hnet.channels user ch).mpr huser, ?_⟩,
      decide_eq_true herror, rfl⟩
    exact (hnet.locmembers ch m).mpr ⟨hm, (Bool.and_eq_true_iff.mp hmine).1⟩

theorem Walk.forget (h : Walk net lines K s₀ s served) :
    Walk net lines (fun _ => False) s₀ s served :=
  ⟨h.current, h.serial_le, fun _ hx => hx.elim, h.errors, h.stays, h.sent⟩

theorem sendLinebuf_of_error (h : s.ioError x = true) (line : Bytes) :
    net.sendLinebuf s x line = s := by
  unfold Net.sendLinebuf
  by_cases hme : (net.client x).status = .me
  · rw [if_pos hme]
  · rw [if_neg hme, if_pos (Or.inr h)]

/-- The links that `sendto_common_channels_local` serves. -/
theorem sendtoCommonChannelsLocal_walk (hnet : net.Consistent) (hs : s.Stamped)
    (hserial : s.currentSerial + 1 < 2 ^ 32) {user : Nat} (huser : (net.client user).status = .client)
    (line : Bytes) : ∃ served : List Nat, served.Nodup ∧
      (∀ x, net.CommonGets s user x ↔ x ∈ served ∧ net.full x = false) ∧
      Walk net (fun _ => line) (fun _ => False) s.nextSerial
        (net.sendtoCommonChannelsLocal s user line) served := by
  obtain ⟨served, hnodup, hmem, hwalk⟩ := commonWalk_channels hnet hs hserial user line
  have hmine := myClient_eq net huser
  unfold Net.sendtoCommonChannelsLocal
  dsimp only
  generalize (net.client user).channel.foldl
    (fun s ch => (net.channel ch).locmembers.foldl (net.toCommon line) s) s.nextSerial = s₁ at hwalk ⊢
  by_cases hlast : (net.client user).myConnect = true ∧ user ∉ served ∧ s.ioError user = false
  · -- the user has not been served in a channel
    obtain ⟨hconnect, hnot, herror⟩ := hlast
    have hme : (net.client user).status ≠ .me := by
      rw [huser]
      exact Status.noConfusion
    have herror₁ : s₁.ioError user = false := (hwalk.errors user hnot).trans herror
    have hserial₁ : s₁.serial user ≠ s₁.currentSerial := fun heq =>
      hnot ((hwalk.marked user (hmine.trans hconnect)).mp heq)
    obtain ⟨hsends, hsame⟩ := sendLinebuf_sends hme hconnect herror₁ line
    refine ⟨user :: served, List.nodup_cons.mpr ⟨hnot, hnodup⟩, fun x => ?_, ?_⟩
    · unfold Net.CommonGets
      rw [List.mem_cons, hmem]
      constructor
      · rintro ⟨herr, hfull, hlocal, hx | hx⟩
        · exact ⟨Or.inl hx, hfull⟩
        · exact ⟨Or.inr ⟨herr, hlocal, hx⟩, hfull⟩
      · rintro ⟨rfl | ⟨herr, hlocal, hx⟩, hfull⟩
        · exact ⟨herror, hfull, hmine.trans hconnect, Or.inl rfl⟩
        · exact ⟨herr, hfull, hlocal, Or.inr hx⟩
    · rw [if_pos ⟨hconnect, hserial₁⟩, hnet.local_link user hconnect]
      refine hwalk.forget.serve hsends ?_ fun hx => hx.elim
      rw [hsame, hsends.current]
      exact hwalk.serial_le user
  · -- nothing happens at the end
    refine ⟨served, hnodup, fun x => ?_, ?_⟩
    · unfold Net.CommonGets
      rw [hmem]
      constructor
      · rintro ⟨herr, hfull, hlocal, rfl | hx⟩
        · by_contra hno
          refine hlast ⟨hmine.symm.trans hlocal, fun hserved => hno ⟨(hmem x).mp hserved, hfull⟩, herr⟩
        · exact ⟨⟨herr, hlocal, hx⟩, hfull⟩
      · rintro ⟨⟨herr, hlocal, hx⟩, hfull⟩
        exact ⟨herr, hfull, hlocal, Or.inr hx⟩
    · by_cases hcond : (net.client user).myConnect = true ∧ s₁.serial user ≠ s₁.currentSerial
      · obtain ⟨hconnect, hserial₁⟩ := hcond
        have hnot : user ∉ served := fun hserved =>
          hserial₁ ((hwalk.marked user (hmine.trans hconnect)).mpr hserved)
        have herror : s.ioError user = true := by
          by_contra herr
          exact hlast ⟨hconnect, hnot, Bool.eq_false_iff.mpr herr⟩
        rw [if_pos ⟨hconnect, hserial₁⟩, hnet.local_link user hconnect,
          sendLinebuf_of_error (hwalk.stays user herror)]
        exact hwalk.forget
      · rw [if_neg hcond]
        exact hwalk.forget

end Common

/-- Each message goes out once to everyone it is for, and to nobody else; the marks stay
    values that the counter has had. -/
theorem fanout_once (net : Net) (hnet : net.Consistent) (s : Links) (hs : s.Stamped)
    (hserial : s.currentSerial + 1 < 2 ^ 32) :
    (∀ one type source ch text, (net.sendtoChannelFlags s one type source ch text).Stamped ∧
      ∀ x, (net.ChannelGets s one type ch x →
          (net.sendtoChannelFlags s one type source ch text).sentTo x
            = s.sentTo x ++ [net.channelLine source text x]) ∧
        (¬ net.ChannelGets s one type ch x →
          (net.sendtoChannelFlags s one type source ch text).sentTo x = s.sentTo x)) ∧
    ∀ user line, (net.client user).status = .client →
      (net.sendtoCommonChannelsLocal s user line).Stamped ∧
      ∀ x, (net.CommonGets s user x →
          (net.sendtoCommonChannelsLocal s user line).sentTo x = s.sentTo x ++ [line]) ∧
        (¬ net.CommonGets s user x →
          (net.sendtoCommonChannelsLocal s user line).sentTo x = s.sentTo x) := by
  constructor
  · intro one type source ch text
    exact sendtoChannelFlags_once hnet hs hserial one type source ch text
  · intro user line huser
    obtain ⟨served, hnodup, hmem, hwalk⟩ := sendtoCommonChannelsLocal_walk hnet hs hserial huser line
    refine ⟨hwalk.serial_le, fun x => ?_⟩
    rw [hmem x]
    exact hwalk.sentTo hnodup x

/-- A client without a name. -/
def plainClient (status : Status) (myConnect : Bool) (link : Nat) (channel : List Nat) : Client where
  name := []
  username := []
  host := []
  virthost := []
  id := []
  status := status
  myConnect := myConnect
  link := link
  deaf := false
  cloaked := false
  capChw := false
  channel := channel

/-- A channel with two local users and one behind a link. -/
def smallNet : Net where
  client
    | 1 => plainClient .client true 1 [0]
    | 2 => plainClient .client true 2 [0]
    | 3 => plainClient .server true 3 []
    | 4 => plainClient .client false 3 [0]
    | _ => plainClient .server false 0 []
  channel
    | 0 => { members := [⟨1, 0⟩, ⟨2, 0⟩, ⟨4, 0⟩], locmembers := [⟨1, 0⟩, ⟨2, 0⟩] }
    | _ => { members := [], locmembers := [] }
  full _ := false
  breaks _ := false

theorem smallNet_consistent : smallNet.Consistent := by
  constructor
  · rintro (_ | _ | _ | _ | _ | x) h <;> first | rfl | exact absurd h Bool.false_ne_true
  · rintro (_ | _ | _ | _ | _ | x) hstatus hremote
    · cases hstatus
    · cases hremote
    · cases hremote
    · cases hstatus
    · exact ⟨rfl, rfl⟩
    · cases hstatus
  · rintro (_ | ch) m hm
    · simp only [smallNet, List.mem_cons, List.not_mem_nil, or_false] at hm
      obtain rfl | rfl | rfl := hm <;> rfl
    · cases hm
  · rintro (_ | ch)
    · decide
    · exact List.nodup_nil
  · rintro (_ | ch) m
    · simp only [smallNet, List.mem_cons, List.not_mem_nil, or_false]
      constructor
      · rintro (rfl | rfl) <;> simp [plainClient]
      · rintro ⟨rfl | rfl | rfl, hm⟩
        · exact Or.inl rfl
        · exact Or.inr rfl
        · cases hm
    · exact ⟨fun hm => absurd hm List.not_mem_nil, fun hm => hm.1⟩
  · rintro (_ | _ | _ | _ | _ | x) (_ | ch) <;> simp [smallNet, plainClient]

/-- Nothing has been sent, and one user has an I/O error. -/
def errorLinks : Links where
  serial _ := 0
  ioError x := x == 2
  currentSerial := 0
  sent := []
  ghosted := []

theorem errorLinks_stamped : errorLinks.Stamped := fun _ => Nat.le_refl 0

theorem fanout_once_small :
    (smallNet.sendtoChannelFlags errorLinks (some 1) 0 1 0 [65]).sentTo 3 = [[58, 32, 65]] ∧
    (smallNet.sendtoCommonChannelsLocal errorLinks 4 [66]).sentTo 1 = [[66]] := by
  obtain ⟨hchannel, hcommon⟩ :=
    fanout_once smallNet smallNet_consistent errorLinks errorLinks_stamped (by decide)
  refine ⟨((hchannel (some 1) 0 1 0 [65]).2 3).1 ?_, ((hcommon 4 [66] rfl).2 1).1 ?_⟩
  · refine ⟨rfl, rfl, by decide, ⟨4, 0⟩, by decide, ⟨Or.inl rfl, rfl⟩, Or.inr ⟨rfl, rfl, rfl, Or.inl rfl⟩⟩
  · exact ⟨rfl, rfl, rfl, Or.inr ⟨0, ⟨⟨4, 0⟩, by decide, rfl⟩, ⟨1, 0⟩, by decide, rfl⟩⟩

/-- A local user with an I/O error that shares a channel with another gets no copy. -/
theorem no_copy_with_error :
    smallNet.Consistent ∧ errorLinks.Stamped ∧ errorLinks.currentSerial + 1 < 2 ^ 32 ∧
    (smallNet.client 1).status = .client ∧ smallNet.myClient 2 = true ∧
    (⟨1, 0⟩ : Member) ∈ (smallNet.channel 0).members ∧
    (⟨2, 0⟩ : Member) ∈ (smallNet.channel 0).members ∧
    (smallNet.sendtoCommonChannelsLocal errorLinks 1 [66]).sentTo 2 ≠ errorLinks.sentTo 2 ++ [[66]] :=
  ⟨smallNet_consistent, errorLinks_stamped, by decide, rfl, rfl, by decide, by decide, by decide⟩

end Bluebox.Fanout
