/-
  Bluebox.Channel.Forward

  How joins travel on: the `JOIN` and `SJOIN` lines that the handlers of
  `modules/core/m_join.c` give to `sendto_server` (`libratboxcore/send.c`).

  A server takes users by UID (`CAP_TS6`) or by nick, and some of those without UIDs take
  the short form of `SJOIN` (`CAP_SSJOIN`).  Each handler sends one line for each kind of
  server; the masks of `ms_join` overlap.  `ms_sjoin` packs its users into lines, and
  names a user as often as the line it got does.
-/
import Mathlib.Data.Nat.Bitwise
import Bluebox.Lib.Pack
import Bluebox.Channel.Burst

namespace Bluebox.Forward

open Bluebox.Lib Bluebox.Chan

-- ============================================================================
-- sendto_server
-- ============================================================================

/-- `CAP_TS6`. -/
def capTs6 : UInt32 := 0x8000

/-- `CAP_SSJOIN`. -/
def capSsjoin : UInt32 := 0x100000

/-- A server of `serv_list`, with its capabilities. -/
structure Link where
  id : Nat
  caps : UInt32
deriving DecidableEq, Repr

/-- `serv_list`. -/
structure ServList where
  links : List Link
  nodup : (links.map Link.id).Nodup

/-- A line, and the users whose join it tells. -/
structure Line where
  text : Bytes
  users : List Nat
deriving DecidableEq, Repr

/-- `IsCapable`. -/
def Link.isCapable (x : Link) (caps : UInt32) : Bool := x.caps &&& caps == caps

/-- `NotCapable`. -/
def Link.notCapable (x : Link) (nocaps : UInt32) : Bool := x.caps &&& nocaps == 0

/-- `sendto_server`: who is given the line.  `one` is the link that is left out, `chname`
    the name of the channel, if there is one. -/
def sendtoServer (sl : ServList) (one : Nat) (chname : Option Bytes) (caps nocaps : UInt32)
    (line : Line) : List (Nat × Line) :=
  if chname.any fun s => s.head? != some 35 then []
  else (sl.links.filter fun x => x.id != one && x.isCapable caps && x.notCapable nocaps).map
    fun x => (x.id, line)

/-- How many lines a server was given that tell the join of a user. -/
def told (x c : Nat) (sent : List (Nat × Line)) : Nat :=
  sent.countP fun d => d.1 == x && d.2.users.contains c

-- ============================================================================
-- Lines
-- ============================================================================

/-- `:%s JOIN %ld %s +`. -/
def joinLine (source : Bytes) (ts : Int) (chname : Bytes) (c : Nat) : Line :=
  ⟨(58 :: source ++ [32, 74, 79, 73, 78, 32] ++ fmtInt ts ++ 32 :: chname ++ [32, 43]).take 510, [c]⟩

/-- `:%s SJOIN %ld %s`. -/
def sjoinStart (source : Bytes) (ts : Int) (chname : Bytes) : Bytes :=
  58 :: source ++ [32, 83, 74, 79, 73, 78, 32] ++ fmtInt ts ++ 32 :: chname

/-- The short form of `SJOIN`. -/
def ssjoinLine (source : Bytes) (ts : Int) (chname : Bytes) (c : Nat) : Line :=
  ⟨(sjoinStart source ts chname).take 510, [c]⟩

/-- `:%s SJOIN %ld %s %s :`. -/
def sjoinHeader (source : Bytes) (ts : Int) (chname modes : Bytes) : Bytes :=
  sjoinStart source ts chname ++ 32 :: modes ++ [32, 58]

/-- An `SJOIN` with one user. -/
def sjoinLine (source : Bytes) (ts : Int) (chname modes user : Bytes) (c : Nat) : Line :=
  ⟨(sjoinHeader source ts chname modes ++ user).take 510, [c]⟩

/-- This server. -/
structure Me where
  name : Bytes
  id : Bytes

/-- `use_id`. -/
def useId (cl : Client) : Bytes := if cl.id ≠ [] then cl.id else cl.name

-- ============================================================================
-- JOIN
-- ============================================================================

/-- What `m_join` sends when the user has entered: the founder of a channel comes with the
    modes it was given. -/
def enterLocalSends (me : Me) (sl : ServList) (c : Nat) (source : Client) (founder : Bool)
    (ch : Channel) : List (Nat × Line) :=
  if founder then
    if ch.chname.head? = some 35 then
      sendtoServer sl source.link (some ch.chname) capTs6 0
          (sjoinLine me.id ch.channelts ch.chname [43, 110, 116] (64 :: source.id) c) ++
        sendtoServer sl source.link (some ch.chname) 0 capTs6
          (sjoinLine me.name ch.channelts ch.chname [43, 110, 116] (64 :: source.name) c)
    else []
  else
    sendtoServer sl source.link (some ch.chname) capTs6 0
        (joinLine (useId source) ch.channelts ch.chname c) ++
      sendtoServer sl source.link (some ch.chname) capSsjoin capTs6
        (ssjoinLine source.name ch.channelts ch.chname c) ++
      sendtoServer sl source.link (some ch.chname) 0 (capTs6 ||| capSsjoin)
        (sjoinLine me.name ch.channelts ch.chname [43] source.name c)

/-- The lines of `m_join`, for one name of its list. -/
def mJoinSends (cfg : Config) (me : Me) (sl : ServList) (srv : Server) (c : Nat) (source : Client)
    (name key : Bytes) (permitted invited : Bool) (now : Int) : List (Nat × Line) :=
  if !checkChannelName name || name.length > locChannelLen || !isChannelName name || !permitted then []
  else
    match findChannel srv.table name with
    | some p =>
      let ch := srv.table.chan p
      if ch.isMember c then []
      else if canJoin cfg ch source key invited then
        enterLocalSends me sl c source (ch.members == []) (enterLocal ch c now)
      else []
    | none =>
      match getOrCreateChannel srv.table name now with
      | (_, none) => []
      | (t, some (p, _)) =>
        if canJoin cfg (t.chan p) source key invited then
          enterLocalSends me sl c source true (enterLocal (t.chan p) c now)
        else []

/-- Which of the two handlers of a remote user's join it is. -/
inductive Remote
  | msJoin
  | mcSjoin
deriving DecidableEq, Repr

/-- What `ms_join` and `mc_sjoin` send.  `servptr` is the name of the user's server. -/
def enterRemoteSends (h : Remote) (sl : ServList) (c : Nat) (source : Client) (servptr : Bytes)
    (ts : Int) (keepNewModes : Bool) (chname : Bytes) : List (Nat × Line) :=
  let modes : Bytes := if keepNewModes then [43] else [48]
  match h with
  | .msJoin =>
    sendtoServer sl source.link (some chname) capTs6 0 (joinLine source.id ts chname c) ++
      sendtoServer sl source.link (some chname) capSsjoin capTs6 (ssjoinLine source.name ts chname c) ++
      sendtoServer sl source.link (some chname) 0 capTs6
        (sjoinLine servptr ts chname modes source.name c)
  | .mcSjoin =>
    sendtoServer sl source.link (some chname) capSsjoin 0 (ssjoinLine source.name ts chname c) ++
      sendtoServer sl source.link (some chname) 0 capSsjoin
        (sjoinLine servptr ts chname modes source.name c)

/-- The lines of `ms_join` and of `mc_sjoin`.  They are sent whether or not the user was in
    the channel before. -/
def msJoinSends (h : Remote) (sl : ServList) (srv : Server) (c : Nat) (source : Client)
    (servptr ts name : Bytes) (now : Int) : List (Nat × Line) :=
  if !isChannelName name || !checkChannelName name || name.head? == some 38 then []
  else
    match getOrCreateChannel srv.table name now with
    | (_, none) => []
    | (t, some (p, isnew)) =>
      let o := tsCompare isnew (t.chan p).channelts (atol ts)
      enterRemoteSends h sl c source servptr o.ts o.keepNewModes (t.chan p).chname

-- ============================================================================
-- SJOIN
-- ============================================================================

/-- A user in one of the buffers of `ms_sjoin`: its status and its name there. -/
structure Entry where
  text : Bytes
  user : Nat
deriving DecidableEq, Repr

/-- What an entry takes, with the space behind it. -/
def Entry.width (e : Entry) : Nat := e.text.length + 1

/-- What stands in a buffer. -/
def bufText (hdr : Bytes) (l : List Entry) : Bytes :=
  hdr ++ (l.map fun e => e.text ++ [32]).flatten

/-- A buffer: its entries, and whether a line without one was sent from it.  The end of that
    line stays where the header had its `:`, and later lines end there too. -/
structure Buf where
  entries : List Entry
  cut : Bool
deriving DecidableEq, Repr

/-- The line of a buffer: the last byte makes way for the end. -/
def bufLine (hdr : Bytes) (b : Buf) : Line :=
  if b.cut then ⟨hdr.dropLast.take 510, []⟩
  else ⟨(bufText hdr b.entries).dropLast.take 510, b.entries.map Entry.user⟩

/-- The buffer, when its line was sent. -/
def Buf.emptied (b : Buf) : Buf := ⟨[], b.cut || b.entries.isEmpty⟩

/-- One entry more. -/
def Buf.push (b : Buf) (e : Entry) : Buf := { b with entries := b.entries ++ [e] }

/-- The status characters that are passed on. -/
def statusText (keepNewModes : Bool) (fl : UInt8) : Bytes :=
  if keepNewModes then
    (if fl &&& chflChanop ≠ 0 then [64] else []) ++ (if fl &&& chflHalfop ≠ 0 then [37] else []) ++
      if fl &&& chflVoice ≠ 0 then [43] else []
  else []

/-- What a user of the list adds to the two buffers, by nick and by UID. -/
def sjoinEntry (srv : Server) (link : Nat) (keepNewModes : Bool) (s : Bytes) : Option (Entry × Entry) :=
  match sjoinTarget srv link s, findClient srv (statusPrefix 3 0 s).2 with
  | some (c, fl), some (_, target) =>
    some (⟨statusText keepNewModes fl ++ target.name, c⟩,
      ⟨statusText keepNewModes fl ++ useId target, c⟩)
  | _, _ => none

/-- No room for another entry of the longest kind. -/
def bufFull (hdr : Bytes) (longest used : Nat) (_ : Entry) : Bool :=
  hdr.length + used + longest + 3 > bufSize - 3

/-- `buf_nick`, `buf_uid` and what was sent. -/
structure Bufs where
  nick : Buf
  uid : Buf
  sent : List (Nat × Line)

/-- Both buffers with their headers alone. -/
def Bufs.start : Bufs := ⟨⟨[], false⟩, ⟨[], false⟩, []⟩

/-- How much the entries take. -/
def bufUsed (l : List Entry) : Nat := (l.map Entry.width).sum

/-- One user goes into both buffers; none when a buffer is written to behind its end. -/
def packUser (sl : ServList) (link : Nat) (hdrNick hdrUid : Bytes) (st : Bufs) (e : Entry × Entry) :
    Option Bufs :=
  let st := if bufFull hdrNick nickLen (bufUsed st.nick.entries) e.1 then
      { st with
        nick := st.nick.emptied
        sent := st.sent ++ sendtoServer sl link none 0 capTs6 (bufLine hdrNick st.nick) }
    else st
  let st := if bufFull hdrUid idLen (bufUsed st.uid.entries) e.2 then
      { st with
        uid := st.uid.emptied
        sent := st.sent ++ sendtoServer sl link none capTs6 0 (bufLine hdrUid st.uid) }
    else st
  if (bufText hdrNick (st.nick.push e.1).entries).length < bufSize ∧
      (bufText hdrUid (st.uid.push e.2).entries).length < bufSize then
    some { st with nick := st.nick.push e.1, uid := st.uid.push e.2 }
  else none

/-- What the loop of `ms_sjoin` and the lines behind it send. -/
def sjoinSends (sl : ServList) (link : Nat) (hdrNick hdrUid : Bytes) (entries : List (Entry × Entry))
    (joins : Nat) : Option (List (Nat × Line)) :=
  (entries.foldlM (packUser sl link hdrNick hdrUid) Bufs.start).map fun st =>
    if joins = 0 then st.sent
    else st.sent ++ sendtoServer sl link none capTs6 0 (bufLine hdrUid st.uid) ++
      sendtoServer sl link none 0 capTs6 (bufLine hdrNick st.nick)

/-- What `ms_sjoin` packs: the two headers and the users. -/
structure Packed where
  hdrNick : Bytes
  hdrUid : Bytes
  entries : List (Entry × Entry)
  joins : Nat

/-- The headers carry the name as it was given, the time stamp and the modes of the channel
    after the time stamps were compared.  `source` is the name of the server it came from. -/
def sjoinPacked (srv : Server) (m : Sjoin) (source : Bytes) (now : Int) : Option Packed :=
  match sjoinParse m with
  | none => none
  | some (mode, users) =>
    match getOrCreateChannel srv.table m.name now with
    | (_, none) => none
    | (t, some (p, isnew)) =>
      let o := tsCompare isnew (t.chan p).channelts (atol m.ts)
      let mode' := sjoinMode o mode (t.chan p).mode
      let modes := if m.modes.head? ≠ some 48 ∧ o.keepNewModes then channelModes mode' true else [48]
      some
        { hdrNick := sjoinHeader source o.ts m.name modes
          hdrUid := sjoinHeader (if m.sourceId ≠ [] then m.sourceId else source) o.ts m.name modes
          entries := (sjoinUsers [] users).filterMap (sjoinEntry srv m.link o.keepNewModes)
          joins := (sjoinChannel srv m isnew (atol m.ts) mode users (t.chan p)).2 }

/-- The lines of `ms_sjoin`; none when a buffer is written to behind its end. -/
def msSjoinSends (sl : ServList) (srv : Server) (m : Sjoin) (source : Bytes) (now : Int) :
    Option (List (Nat × Line)) :=
  match sjoinPacked srv m source now with
  | none => some []
  | some k =>
    if k.hdrNick.length < bufSize ∧ k.hdrUid.length < bufSize then
      sjoinSends sl m.link k.hdrNick k.hdrUid k.entries k.joins
    else none

-- ============================================================================
-- Joins
-- ============================================================================

/-- A join that a handler runs on: of a local user, of a remote one, or an `SJOIN`. -/
inductive Join
  | user (c : Nat) (name key : Bytes) (permitted invited : Bool) (now : Int)
  | remote (h : Remote) (c : Nat) (servptr ts name : Bytes) (now : Int)
  | sjoin (m : Sjoin) (source : Bytes) (now : Int)

/-- What the join does to the channels. -/
def Join.action : Join → Action
  | .user c name key permitted invited now => .join c name key permitted invited now
  | .remote _ c _ ts name now => .remoteJoin c ts name now
  | .sjoin m _ now => .sjoin m now

/-- What the join sends. -/
def Join.sends (cfg : Config) (me : Me) (sl : ServList) (srv : Server) : Join → Option (List (Nat × Line))
  | .user c name key permitted invited now =>
    (srv.client c).map fun cl => mJoinSends cfg me sl srv c cl name key permitted invited now
  | .remote h c servptr ts name now =>
    (srv.client c).map fun cl => msJoinSends h sl srv c cl servptr ts name now
  | .sjoin m source now => msSjoinSends sl srv m source now

/-- The connection the join came over. -/
def Join.link (srv : Server) : Join → Option Nat
  | .user c .. => (srv.client c).map Client.link
  | .remote _ c .. => (srv.client c).map Client.link
  | .sjoin m .. => some m.link

/-- The users of a channel, none of one that is not in the table. -/
def users (t : Table) (p : Nat) : List Nat :=
  if p ∈ t.globalChannelList then (t.chan p).members.map Membership.clientP else []

/-- One user more in one channel, and no other change of users. -/
def Adds (t t' : Table) (p c : Nat) : Prop :=
  users t' p = c :: users t p ∧ ∀ q, q ≠ p → users t' q = users t q

/-- Every server the join did not come from is given one line that tells it. -/
def ForwardedOnce (cfg : Config) (me : Me) (sl : ServList) (srv : Server) (j : Join) (c : Nat) : Prop :=
  ∃ sent, j.sends cfg me sl srv = some sent ∧
    ∀ x ∈ sl.links, some x.id ≠ j.link srv → told x.id c sent = 1

/-- The header leaves room for an entry of the longest kind. -/
def HasRoom (hdr : Bytes) (longest : Nat) : Prop := hdr.length + longest + 3 ≤ bufSize - 3

instance (hdr : Bytes) (longest : Nat) : Decidable (HasRoom hdr longest) :=
  inferInstanceAs (Decidable (hdr.length + longest + 3 ≤ bufSize - 3))

/-- In a `JOIN` of a remote user, no other server takes the short `SJOIN` without UIDs.  In
    an `SJOIN`, the buffers hold their lines, the headers leave room for users, and no line
    ends between two mentions of the user. -/
def Clear (sl : ServList) (srv : Server) (j : Join) (c : Nat) : Prop :=
  match j with
  | .user .. => True
  | .remote .mcSjoin .. => True
  | .remote .msJoin .. => ∀ x ∈ sl.links, some x.id ≠ j.link srv →
    ¬ (x.isCapable capSsjoin = true ∧ x.notCapable capTs6 = true)
  | .sjoin m source now => ∀ k, sjoinPacked srv m source now = some k →
    Within (bufFull k.hdrNick nickLen) Entry.width (bufSize - k.hdrNick.length) 0 (k.entries.map Prod.fst) ∧
    Within (bufFull k.hdrUid idLen) Entry.width (bufSize - k.hdrUid.length) 0 (k.entries.map Prod.snd) ∧
    ∀ x ∈ sl.links, some x.id ≠ j.link srv →
      if x.isCapable capTs6 then
        HasRoom k.hdrUid idLen ∧
          Together (bufFull k.hdrUid idLen) Entry.width (·.user == c) 0 (k.entries.map Prod.snd)
      else
        HasRoom k.hdrNick nickLen ∧
          Together (bufFull k.hdrNick nickLen) Entry.width (·.user == c) 0 (k.entries.map Prod.fst)

-- ============================================================================
-- Masks
-- ============================================================================

/-- One bit is there or not. -/
theorem and_twoPow_cases (a : UInt32) {b : UInt32} {i : Nat} (hb : b.toNat = 2 ^ i) :
    (a &&& b == 0) = !(a &&& b == b) := by
  have hand : (a &&& b).toNat = (a.toNat.testBit i).toNat * 2 ^ i := by
    rw [UInt32.toNat_and, hb, Nat.and_two_pow]
  have hpos : 0 < 2 ^ i := Nat.two_pow_pos i
  cases hbit : a.toNat.testBit i with
  | true =>
    have heq : a &&& b = b := by
      apply UInt32.toNat_inj.mp
      rw [hand, hbit, hb, Bool.toNat_true, Nat.one_mul]
    have hne : b ≠ 0 := by
      intro h
      rw [h] at hb
      exact absurd hb.symm hpos.ne'
    rw [heq, beq_self_eq_true, beq_eq_false_iff_ne.mpr hne]
    rfl
  | false =>
    have heq : a &&& b = 0 := by
      apply UInt32.toNat_inj.mp
      rw [hand, hbit, Bool.toNat_false, Nat.zero_mul]
      rfl
    have hne : (0 : UInt32) ≠ b := by
      intro h
      rw [← h] at hb
      exact absurd hb.symm hpos.ne'
    rw [heq, beq_self_eq_true, beq_eq_false_iff_ne.mpr hne]
    rfl

theorem notCapable_ts6 (x : Link) : x.notCapable capTs6 = !x.isCapable capTs6 :=
  @and_twoPow_cases x.caps capTs6 15 rfl

theorem notCapable_ssjoin (x : Link) : x.notCapable capSsjoin = !x.isCapable capSsjoin :=
  @and_twoPow_cases x.caps capSsjoin 20 rfl

theorem notCapable_or (x : Link) (a b : UInt32) :
    x.notCapable (a ||| b) = (x.notCapable a && x.notCapable b) := by
  have hzero : ∀ c : UInt32, (x.notCapable c = true ↔ x.caps.toNat &&& c.toNat = 0) := by
    intro c
    rw [Link.notCapable, beq_iff_eq, ← UInt32.toNat_inj, UInt32.toNat_and]
    rfl
  rw [Bool.eq_iff_iff, Bool.and_eq_true, hzero, hzero, hzero, UInt32.toNat_or, Nat.and_or_distrib_left,
    Nat.or_eq_zero_iff]

theorem isCapable_zero (x : Link) : x.isCapable 0 = true := by
  rw [Link.isCapable, UInt32.and_zero]
  rfl

theorem notCapable_zero (x : Link) : x.notCapable 0 = true := by
  rw [Link.notCapable, UInt32.and_zero]
  rfl

theorem told_append (x c : Nat) (a b : List (Nat × Line)) : told x c (a ++ b) = told x c a + told x c b :=
  List.countP_append

/-- The lines that a server was given. -/
def linesTo (x : Nat) (sent : List (Nat × Line)) : List Line := (sent.filter fun d => d.1 == x).map Prod.snd

theorem linesTo_append (x : Nat) (a b : List (Nat × Line)) : linesTo x (a ++ b) = linesTo x a ++ linesTo x b := by
  unfold linesTo
  rw [List.filter_append, List.map_append]

theorem told_eq (x c : Nat) (sent : List (Nat × Line)) :
    told x c sent = (linesTo x sent).countP fun line => line.users.contains c := by
  unfold told linesTo
  rw [List.countP_map, List.countP_filter]
  congr 1
  funext d
  exact Bool.and_comm _ _

theorem filter_id {l : List Link} (hnodup : (l.map Link.id).Nodup) {x : Link} (hx : x ∈ l)
    (q : Link → Bool) :
    l.filter (fun y => y.id == x.id && q y) = if q x then [x] else [] := by
  induction l with
  | nil => exact absurd hx List.not_mem_nil
  | cons y l ih =>
    rw [List.map_cons, List.nodup_cons] at hnodup
    rw [List.filter_cons]
    rcases List.mem_cons.mp hx with rfl | hin
    · have hrest : l.filter (fun y => y.id == x.id && q y) = [] := by
        rw [List.filter_eq_nil_iff]
        intro y hy heq
        rw [Bool.and_eq_true, beq_iff_eq] at heq
        exact hnodup.1 (List.mem_map.mpr ⟨y, hy, heq.1⟩)
      rw [hrest, beq_self_eq_true, Bool.true_and]
    · have hne : (y.id == x.id) = false := by
        rw [beq_eq_false_iff_ne]
        intro heq
        exact hnodup.1 (List.mem_map.mpr ⟨x, hin, heq.symm⟩)
      rw [hne, Bool.false_and, if_neg Bool.false_ne_true]
      exact ih hnodup.2 hin

/-- A server is given the line when it is one that the line is for. -/
theorem linesTo_sendtoServer {sl : ServList} {x : Link} (hx : x ∈ sl.links) {one : Nat}
    (hone : x.id ≠ one) {chname : Option Bytes} (hname : ∀ s ∈ chname, s.head? = some 35)
    {caps nocaps : UInt32} {line : Line} :
    linesTo x.id (sendtoServer sl one chname caps nocaps line) =
      if x.isCapable caps && x.notCapable nocaps then [line] else [] := by
  have hsend : ¬ (chname.any fun s => s.head? != some 35) = true := by
    cases chname with
    | none => nofun
    | some s => simp [hname s rfl]
  have hfilter := filter_id sl.nodup hx fun y => y.id != one && y.isCapable caps && y.notCapable nocaps
  rw [bne_iff_ne.mpr hone, Bool.true_and] at hfilter
  unfold linesTo sendtoServer
  rw [if_neg hsend, List.filter_map, List.filter_filter, List.map_map]
  have hid : (fun y : Link => ((fun d : Nat × Line => d.1 == x.id) ∘ fun y : Link => (y.id, line)) y &&
      (y.id != one && y.isCapable caps && y.notCapable nocaps)) =
      fun y => y.id == x.id && (y.id != one && y.isCapable caps && y.notCapable nocaps) := rfl
  rw [hid, hfilter]
  split
  · rfl
  · rfl

theorem told_sendtoServer {sl : ServList} {x : Link} (hx : x ∈ sl.links) {one c : Nat}
    (hone : x.id ≠ one) {chname : Option Bytes} (hname : ∀ s ∈ chname, s.head? = some 35)
    {caps nocaps : UInt32} {line : Line} :
    told x.id c (sendtoServer sl one chname caps nocaps line) =
      if x.isCapable caps && x.notCapable nocaps && line.users.contains c then 1 else 0 := by
  rw [told_eq, linesTo_sendtoServer hx hone hname]
  cases x.isCapable caps && x.notCapable nocaps with
  | false => rfl
  | true =>
    rw [if_pos rfl, Bool.true_and, List.countP_singleton]

-- ============================================================================
-- The buffers of SJOIN
-- ============================================================================

/-- A buffer behind another entry. -/
def nextBuf (hdr : Bytes) (longest : Nat) (b : Buf) (e : Entry) : Buf :=
  if bufFull hdr longest (bufUsed b.entries) e then b.emptied.push e else b.push e

theorem bufUsed_nextBuf (hdr : Bytes) (longest : Nat) (b : Buf) (e : Entry) :
    bufUsed (nextBuf hdr longest b e).entries = fill (bufFull hdr longest) Entry.width (bufUsed b.entries) e := by
  unfold nextBuf fill
  by_cases hfull : bufFull hdr longest (bufUsed b.entries) e = true
  · rw [if_pos hfull, if_pos hfull]
    simp [bufUsed, Buf.push, Buf.emptied]
  · rw [if_neg hfull, if_neg hfull]
    simp [bufUsed, Buf.push]

theorem length_bufText (hdr : Bytes) (l : List Entry) : (bufText hdr l).length = hdr.length + bufUsed l := by
  rw [bufText, List.length_append, List.length_flatten, List.map_map, bufUsed]
  congr 2
  apply List.map_congr_left
  intro e _
  simp [Entry.width]

/-- What is sent off before an entry. -/
def flushed (sl : ServList) (link : Nat) (hdr : Bytes) (longest : Nat) (caps nocaps : UInt32)
    (b : Buf) (e : Entry) : List (Nat × Line) :=
  if bufFull hdr longest (bufUsed b.entries) e then sendtoServer sl link none caps nocaps (bufLine hdr b) else []

theorem packUser_eq (sl : ServList) (link : Nat) (hdrNick hdrUid : Bytes) (st : Bufs)
    (e : Entry × Entry) :
    packUser sl link hdrNick hdrUid st e =
      if hdrNick.length + bufUsed (nextBuf hdrNick nickLen st.nick e.1).entries < bufSize ∧
          hdrUid.length + bufUsed (nextBuf hdrUid idLen st.uid e.2).entries < bufSize then
        some ⟨nextBuf hdrNick nickLen st.nick e.1, nextBuf hdrUid idLen st.uid e.2,
          st.sent ++ flushed sl link hdrNick nickLen 0 capTs6 st.nick e.1 ++
            flushed sl link hdrUid idLen capTs6 0 st.uid e.2⟩
      else none := by
  unfold packUser nextBuf flushed
  by_cases hn : bufFull hdrNick nickLen (bufUsed st.nick.entries) e.1 = true
  · by_cases hu : bufFull hdrUid idLen (bufUsed st.uid.entries) e.2 = true
    · simp only [if_pos hn, if_pos hu, length_bufText]
    · simp only [if_pos hn, if_neg hu, length_bufText, List.append_nil]
  · by_cases hu : bufFull hdrUid idLen (bufUsed st.uid.entries) e.2 = true
    · simp only [if_neg hn, if_pos hu, length_bufText, List.append_nil]
    · simp only [if_neg hn, if_neg hu, length_bufText, List.append_nil]

section Packing

variable {sl : ServList} {link : Nat} {hdrNick hdrUid : Bytes}

/-- Where both buffers hold their lines, an entry goes into both. -/
theorem packUser_some {st st' : Bufs} {e : Entry × Entry}
    (h : packUser sl link hdrNick hdrUid st e = some st') :
    st' = ⟨nextBuf hdrNick nickLen st.nick e.1, nextBuf hdrUid idLen st.uid e.2,
      st.sent ++ flushed sl link hdrNick nickLen 0 capTs6 st.nick e.1 ++
        flushed sl link hdrUid idLen capTs6 0 st.uid e.2⟩ := by
  rw [packUser_eq] at h
  split at h
  · exact (Option.some.inj h).symm
  · cases h

/-- The loop gets through iff both buffers hold their lines. -/
theorem packUsers_isSome (entries : List (Entry × Entry)) : ∀ st : Bufs,
    (entries.foldlM (packUser sl link hdrNick hdrUid) st).isSome = true ↔
      Within (bufFull hdrNick nickLen) Entry.width (bufSize - hdrNick.length) (bufUsed st.nick.entries)
          (entries.map Prod.fst) ∧
        Within (bufFull hdrUid idLen) Entry.width (bufSize - hdrUid.length) (bufUsed st.uid.entries)
          (entries.map Prod.snd) := by
  induction entries with
  | nil =>
    intro st
    refine ⟨fun _ => ⟨?_, ?_⟩, fun _ => rfl⟩
    · intro before a after h
      exact absurd h (by cases before <;> nofun)
    · intro before a after h
      exact absurd h (by cases before <;> nofun)
  | cons e entries ih =>
    intro st
    rw [List.foldlM_cons, packUser_eq, List.map_cons, List.map_cons, within_cons, within_cons,
      ← bufUsed_nextBuf, ← bufUsed_nextBuf]
    by_cases hroom : hdrNick.length + bufUsed (nextBuf hdrNick nickLen st.nick e.1).entries < bufSize ∧
        hdrUid.length + bufUsed (nextBuf hdrUid idLen st.uid e.2).entries < bufSize
    · rw [if_pos hroom]
      refine (ih _).trans ⟨fun h => ⟨⟨by omega, h.1⟩, by omega, h.2⟩, fun h => ⟨h.1.2, h.2.2⟩⟩
    · rw [if_neg hroom]
      exact ⟨nofun, fun h => absurd ⟨by omega, by omega⟩ hroom⟩

/-- One buffer on its own, and its lines. -/
def packOne (hdr : Bytes) (longest : Nat) (st : Buf × List Line) (e : Entry) : Buf × List Line :=
  (nextBuf hdr longest st.1 e,
    st.2 ++ if bufFull hdr longest (bufUsed st.1.entries) e then [bufLine hdr st.1] else [])

theorem linesTo_flushed {x : Link} (hx : x ∈ sl.links) (hlink : x.id ≠ link) {hdr : Bytes} {longest : Nat}
    {caps nocaps : UInt32} {b : Buf} {e : Entry} :
    linesTo x.id (flushed sl link hdr longest caps nocaps b e) =
      if x.isCapable caps && x.notCapable nocaps then
        if bufFull hdr longest (bufUsed b.entries) e then [bufLine hdr b] else []
      else [] := by
  have hnone : ∀ s ∈ (none : Option Bytes), s.head? = some 35 := fun s h => absurd h (Option.not_mem_none s)
  unfold flushed
  by_cases hfull : bufFull hdr longest (bufUsed b.entries) e = true
  · rw [if_pos hfull, if_pos hfull, linesTo_sendtoServer hx hlink hnone]
  · rw [if_neg hfull, if_neg hfull, ite_self]
    rfl

/-- A server that takes UIDs is sent the one kind of line, any other the other kind. -/
theorem takes_uid (x : Link) : (x.isCapable capTs6 && x.notCapable 0) = x.isCapable capTs6 := by
  rw [notCapable_zero, Bool.and_true]

theorem takes_nick (x : Link) : (x.isCapable 0 && x.notCapable capTs6) = !x.isCapable capTs6 := by
  rw [isCapable_zero, notCapable_ts6, Bool.true_and]

/-- A server with UIDs is given the lines of the one buffer. -/
theorem linesTo_uid {x : Link} (hx : x ∈ sl.links) (hlink : x.id ≠ link) (hts6 : x.isCapable capTs6 = true)
    (entries : List (Entry × Entry)) : ∀ {st st' : Bufs},
    entries.foldlM (packUser sl link hdrNick hdrUid) st = some st' →
    (st'.uid, linesTo x.id st'.sent) =
      (entries.map Prod.snd).foldl (packOne hdrUid idLen) (st.uid, linesTo x.id st.sent) := by
  refine foldl_of_foldlM (fun st : Bufs => (st.uid, linesTo x.id st.sent)) Prod.snd ?_ entries
  intro st e st' h
  rw [packUser_some h]
  dsimp only
  rw [linesTo_append, linesTo_append, linesTo_flushed hx hlink, linesTo_flushed hx hlink, takes_uid,
    takes_nick, hts6, Bool.not_true, if_neg Bool.false_ne_true, List.append_nil, if_pos rfl]
  rfl

/-- Any other server is given those of the other one. -/
theorem linesTo_nick {x : Link} (hx : x ∈ sl.links) (hlink : x.id ≠ link) (hts6 : x.isCapable capTs6 = false)
    (entries : List (Entry × Entry)) : ∀ {st st' : Bufs},
    entries.foldlM (packUser sl link hdrNick hdrUid) st = some st' →
    (st'.nick, linesTo x.id st'.sent) =
      (entries.map Prod.fst).foldl (packOne hdrNick nickLen) (st.nick, linesTo x.id st.sent) := by
  refine foldl_of_foldlM (fun st : Bufs => (st.nick, linesTo x.id st.sent)) Prod.fst ?_ entries
  intro st e st' h
  rw [packUser_some h]
  dsimp only
  rw [linesTo_append, linesTo_append, linesTo_flushed hx hlink, linesTo_flushed hx hlink, takes_uid,
    takes_nick, hts6, Bool.not_false, if_pos rfl, if_neg Bool.false_ne_true, List.append_nil]
  rfl

/-- The lines of a buffer, the last one included. -/
def bufLines (hdr : Bytes) (longest : Nat) (l : List Entry) : List Line :=
  let st := l.foldl (packOne hdr longest) (⟨[], false⟩, [])
  st.2 ++ [bufLine hdr st.1]

/-- A server is given the lines of the buffer of its kind. -/
theorem linesTo_sjoinSends {x : Link} (hx : x ∈ sl.links) (hlink : x.id ≠ link)
    {entries : List (Entry × Entry)} {joins : Nat} (hjoins : joins ≠ 0) {sent : List (Nat × Line)}
    (h : sjoinSends sl link hdrNick hdrUid entries joins = some sent) :
    linesTo x.id sent =
      if x.isCapable capTs6 then bufLines hdrUid idLen (entries.map Prod.snd)
      else bufLines hdrNick nickLen (entries.map Prod.fst) := by
  have hnone : ∀ s ∈ (none : Option Bytes), s.head? = some 35 := fun s h => absurd h (Option.not_mem_none s)
  obtain ⟨st, hst, hsent⟩ := Option.map_eq_some_iff.mp h
  rw [if_neg hjoins] at hsent
  rw [← hsent, linesTo_append, linesTo_append, linesTo_sendtoServer hx hlink hnone,
    linesTo_sendtoServer hx hlink hnone, takes_uid, takes_nick]
  unfold bufLines
  cases hts6 : x.isCapable capTs6 with
  | true =>
    have hlines := linesTo_uid hx hlink hts6 entries hst
    rw [if_pos rfl, if_neg (by decide), List.append_nil]
    exact congrArg (fun p : Buf × List Line => p.2 ++ [bufLine hdrUid p.1]) hlines
  | false =>
    have hlines := linesTo_nick hx hlink hts6 entries hst
    rw [if_neg Bool.false_ne_true, if_pos (by decide), List.append_nil]
    exact congrArg (fun p : Buf × List Line => p.2 ++ [bufLine hdrNick p.1]) hlines

/-- Only entries fill a line that has room. -/
theorem entries_ne_nil_of_full {hdr : Bytes} {longest : Nat} {b : Buf} {e : Entry} (hroom : HasRoom hdr longest)
    (hfull : bufFull hdr longest (bufUsed b.entries) e = true) : b.entries ≠ [] := by
  intro hnil
  rw [hnil] at hfull
  have hover : hdr.length + 0 + longest + 3 > bufSize - 3 := of_decide_eq_true hfull
  exact absurd hroom (by unfold HasRoom; omega)

/-- Where the header leaves room, the lines are those of the packing. -/
theorem foldl_packOne {hdr : Bytes} {longest : Nat} (hroom : HasRoom hdr longest) (l : List Entry) :
    ∀ (entries : List Entry) (lines : List Line),
    (l.foldl (packOne hdr longest) (⟨entries, false⟩, lines)).2 ++
        [bufLine hdr (l.foldl (packOne hdr longest) (⟨entries, false⟩, lines)).1] =
      lines ++ (packFrom (bufFull hdr longest) Entry.width entries (bufUsed entries) l).map
        fun r => bufLine hdr ⟨r, false⟩ := by
  induction l with
  | nil => exact fun entries lines => rfl
  | cons e l ih =>
    intro entries lines
    have hused := bufUsed_nextBuf hdr longest ⟨entries, false⟩ e
    rw [List.foldl_cons, packFrom]
    unfold packOne nextBuf at *
    by_cases hfull : bufFull hdr longest (bufUsed entries) e = true
    · have hcut : (Buf.emptied ⟨entries, false⟩).push e = ⟨[e], false⟩ := by
        show Buf.mk ([] ++ [e]) (false || entries.isEmpty) = _
        rw [Bool.false_or, List.isEmpty_eq_false_iff.mpr (entries_ne_nil_of_full (b := ⟨entries, false⟩) hroom hfull)]
        rfl
      rw [if_pos hfull, hcut, fill, if_pos hfull, Nat.zero_add] at hused
      rw [if_pos hfull, if_pos hfull, if_pos hfull, hcut, ih, hused, List.map_cons, List.append_assoc]
      rfl
    · have hpush : (Buf.push ⟨entries, false⟩ e) = ⟨entries ++ [e], false⟩ := rfl
      rw [if_neg hfull, hpush, fill, if_neg hfull] at hused
      rw [if_neg hfull, if_neg hfull, if_neg hfull, hpush, ih, hused, List.append_nil]

theorem bufLines_eq {hdr : Bytes} {longest : Nat} (hroom : HasRoom hdr longest) (l : List Entry) :
    bufLines hdr longest l =
      (packFrom (bufFull hdr longest) Entry.width [] 0 l).map fun r => bufLine hdr ⟨r, false⟩ := by
  unfold bufLines
  rw [foldl_packOne hroom l [] []]
  rfl

/-- The line of a header without its `:`. -/
theorem bufLine_blank {hdr : Bytes} {b : Buf} (h : b.cut = true ∨ b.entries = []) :
    bufLine hdr b = ⟨hdr.dropLast.take 510, []⟩ := by
  unfold bufLine
  by_cases hcut : b.cut = true
  · rw [if_pos hcut]
  · rw [if_neg hcut, h.resolve_left hcut]
    unfold bufText
    rw [List.map_nil, List.flatten_nil, List.append_nil, List.map_nil]

/-- Where it does not, no line has a user. -/
theorem foldl_packOne_blank {hdr : Bytes} {longest : Nat} (hroom : ¬ HasRoom hdr longest) (l : List Entry) :
    ∀ st : Buf × List Line, (st.1.cut = true ∨ st.1.entries = []) →
      (∀ line ∈ st.2, line = ⟨hdr.dropLast.take 510, []⟩) →
      ((l.foldl (packOne hdr longest) st).1.cut = true ∨ (l.foldl (packOne hdr longest) st).1.entries = []) ∧
        ∀ line ∈ (l.foldl (packOne hdr longest) st).2, line = ⟨hdr.dropLast.take 510, []⟩ := by
  induction l with
  | nil => exact fun st hb hlines => ⟨hb, hlines⟩
  | cons e l ih =>
    intro st hb hlines
    have hfull : bufFull hdr longest (bufUsed st.1.entries) e = true := by
      unfold HasRoom at hroom
      exact decide_eq_true (by omega)
    refine ih _ ?_ ?_
    · unfold packOne nextBuf
      rw [if_pos hfull]
      refine Or.inl ?_
      show (st.1.cut || st.1.entries.isEmpty) = true
      rw [Bool.or_eq_true, List.isEmpty_iff]
      exact hb
    · unfold packOne
      rw [if_pos hfull]
      intro line hline
      obtain hline | hline := List.mem_append.mp hline
      · exact hlines line hline
      · rw [List.mem_singleton.mp hline]
        exact bufLine_blank hb

theorem bufLines_blank {hdr : Bytes} {longest : Nat} (hroom : ¬ HasRoom hdr longest) (l : List Entry) :
    ∀ line ∈ bufLines hdr longest l, line = ⟨hdr.dropLast.take 510, []⟩ := by
  obtain ⟨hb, hlines⟩ := foldl_packOne_blank hroom l (⟨[], false⟩, []) (Or.inr rfl)
    fun line h => absurd h List.not_mem_nil
  intro line hline
  obtain hline | hline := List.mem_append.mp hline
  · exact hlines line hline
  · rw [List.mem_singleton.mp hline]
    exact bufLine_blank hb

/-- How many lines have the user: as many as those of the packing, where the header leaves
    room. -/
theorem countP_bufLines {hdr : Bytes} {longest c : Nat} {l : List Entry} :
    ((bufLines hdr longest l).countP fun line => line.users.contains c) =
      if HasRoom hdr longest then
        markedLines (·.user == c) (packFrom (bufFull hdr longest) Entry.width [] 0 l)
      else 0 := by
  by_cases hroom : HasRoom hdr longest
  · rw [if_pos hroom, bufLines_eq hroom, List.countP_map]
    unfold markedLines
    congr 1
    funext r
    rw [Bool.eq_iff_iff, Function.comp_apply, List.contains_iff_mem, List.any_eq_true]
    exact ⟨fun h => (List.mem_map.mp h).imp fun e he => ⟨he.1, beq_iff_eq.mpr he.2⟩,
      fun ⟨e, he, heq⟩ => List.mem_map.mpr ⟨e, he, beq_iff_eq.mp heq⟩⟩
  · rw [if_neg hroom, List.countP_eq_zero]
    intro line hline hc
    rw [bufLines_blank hroom l line hline] at hc
    cases hc

/-- What a server is told of a user. -/
theorem told_sjoinSends {x : Link} (hx : x ∈ sl.links) (hlink : x.id ≠ link) (c : Nat)
    {entries : List (Entry × Entry)} {joins : Nat} (hjoins : joins ≠ 0) {sent : List (Nat × Line)}
    (h : sjoinSends sl link hdrNick hdrUid entries joins = some sent) :
    told x.id c sent =
      if x.isCapable capTs6 then
        if HasRoom hdrUid idLen then
          markedLines (·.user == c) (packFrom (bufFull hdrUid idLen) Entry.width [] 0 (entries.map Prod.snd))
        else 0
      else if HasRoom hdrNick nickLen then
        markedLines (·.user == c) (packFrom (bufFull hdrNick nickLen) Entry.width [] 0 (entries.map Prod.fst))
      else 0 := by
  rw [told_eq, linesTo_sjoinSends hx hlink hjoins h]
  split
  · exact countP_bufLines
  · exact countP_bufLines

end Packing

-- ============================================================================
-- Who was added
-- ============================================================================

theorem users_setChan_of_ne {t : Table} {p q : Nat} (ch : Channel) (h : q ≠ p) :
    users (t.setChan p ch) q = users t q := by
  have hchan : (t.setChan p ch).chan q = t.chan q := Function.update_of_ne h ..
  unfold users
  rw [hchan]
  rfl

theorem users_setChan (t : Table) (p : Nat) (ch : Channel) :
    users (t.setChan p ch) p =
      if p ∈ t.globalChannelList then ch.members.map Membership.clientP else [] := by
  unfold users
  rw [Table.chan_setChan]
  rfl

section Adding

variable {t t' : Table} {p c : Nat}

/-- Only the channel that changed can have got the user. -/
theorem Adds.eq {q : Nat} (h : Adds t t' p c) (hsame : ∀ r, r ≠ q → users t' r = users t r) :
    p = q := by
  by_contra hne
  have hlen := congrArg List.length (h.1.symm.trans (hsame p hne))
  rw [List.length_cons] at hlen
  omega

theorem not_adds_self : ¬ Adds t t p c := by
  intro h
  have hlen := congrArg List.length h.1
  rw [List.length_cons] at hlen
  omega

/-- `get_or_create_channel` brings nobody into a channel. -/
theorem getOrCreateChannel_users {name : Bytes} {now : Int} {q : Nat} {isnew : Bool}
    (h : getOrCreateChannel t name now = (t', some (q, isnew))) :
    (∀ r, r ≠ q → users t' r = users t r) ∧
      ((isnew = false ∧ t' = t) ∨ (isnew = true ∧ (t'.chan q).members = [])) := by
  obtain ⟨-, rfl, rfl⟩ | ⟨-, rfl, rfl, rfl⟩ := getOrCreateChannel_some h
  · exact ⟨fun _ _ => rfl, Or.inl ⟨rfl, rfl⟩⟩
  · refine ⟨fun r hr => ?_, Or.inr ⟨rfl, ?_⟩⟩
    · have hlist : r ∈ (t.add (lookupName name) now).globalChannelList ↔ r ∈ t.globalChannelList :=
        List.mem_cons.trans (or_iff_right hr)
      unfold users
      rw [Table.chan_add_of_ne hr]
      simp only [hlist]
    · rw [Table.chan_add]
      rfl

/-- A channel whose list of users is longer by those who entered. -/
theorem Adds.setChan {t₁ : Table} {q : Nat} {ch : Channel} {entered : List Nat}
    (h : Adds t (t₁.setChan q ch) p c) (hother : ∀ r, r ≠ q → users t₁ r = users t r)
    (hbefore : t₁ = t ∨ (t₁.chan q).members = [])
    (hch : ch.members.map Membership.clientP =
      entered ++ (t₁.chan q).members.map Membership.clientP) :
    p = q ∧ c ∈ entered := by
  obtain rfl : p = q := h.eq fun r hr => (users_setChan_of_ne ch hr).trans (hother r hr)
  have hadd := h.1
  rw [users_setChan] at hadd
  by_cases hlist : p ∈ t₁.globalChannelList
  · rw [if_pos hlist, hch] at hadd
    refine ⟨rfl, ?_⟩
    rcases hbefore with rfl | hnil
    · rw [users, if_pos hlist] at hadd
      have hone : entered = [c] := (List.append_left_inj _).mp hadd
      rw [hone]
      exact List.mem_singleton_self c
    · rw [hnil, List.map_nil, List.append_nil] at hadd
      rw [hadd]
      exact List.mem_cons_self
  · rw [if_neg hlist] at hadd
    cases hadd

/-- A channel that nobody entered, destroyed if it was new. -/
theorem not_adds_of_nobody {t₁ : Table} {q : Nat} {isnew : Bool} {ch : Channel} {entered : List Nat}
    {P : Prop} [Decidable P] (hP : P → isnew = true) (hother : ∀ r, r ≠ q → users t₁ r = users t r)
    (hbefore : (isnew = false ∧ t₁ = t) ∨ (isnew = true ∧ (t₁.chan q).members = []))
    (hch : ch.members.map Membership.clientP =
      entered ++ (t₁.chan q).members.map Membership.clientP) (hnobody : entered = []) :
    ¬ Adds t (if P then destroyChannel (t₁.setChan q ch) q else t₁.setChan q ch) p c := by
  intro h
  by_cases hgone : P
  · rw [if_pos hgone] at h
    obtain ⟨hnew, -⟩ | ⟨-, hnil⟩ := hbefore
    · exact absurd (hnew.symm.trans (hP hgone)) (by decide)
    · have hlist : ∀ r, r ≠ q → (r ∈ (destroyChannel (t₁.setChan q ch) q).globalChannelList ↔
          r ∈ (t₁.setChan q ch).globalChannelList) := fun r hr => List.mem_erase_of_ne hr
      obtain rfl : p = q := h.eq fun r hr => by
        refine Eq.trans ?_ ((users_setChan_of_ne ch hr).trans (hother r hr))
        unfold users
        simp only [hlist r hr]
        rfl
      have hadd := h.1
      have hchan : ((destroyChannel (t₁.setChan p ch) p).chan p).members.map Membership.clientP = [] := by
        show ((t₁.setChan p ch).chan p).members.map Membership.clientP = []
        rw [Table.chan_setChan, hch, hnobody, hnil]
        rfl
      rw [users, hchan, ite_self] at hadd
      cases hadd
  · rw [if_neg hgone] at h
    obtain ⟨-, hin⟩ := h.setChan hother (hbefore.imp And.right And.right) hch
    rw [hnobody] at hin
    cases hin

end Adding

-- ============================================================================
-- JOIN is forwarded
-- ============================================================================

section Joins

variable {cfg : Config} {me : Me} {sl : ServList} {srv : Server} {c : Nat} {source : Client}

theorem told_enterLocalSends {x : Link} (hx : x ∈ sl.links) (hlink : x.id ≠ source.link)
    (founder : Bool) {ch : Channel} (hname : ch.chname.head? = some 35) :
    told x.id c (enterLocalSends me sl c source founder ch) = 1 := by
  have hchan : ∀ s ∈ some ch.chname, s.head? = some 35 := fun s h => Option.some.inj h ▸ hname
  unfold enterLocalSends
  cases founder with
  | true =>
    rw [if_pos rfl, if_pos hname, told_append, told_sendtoServer hx hlink hchan,
      told_sendtoServer hx hlink hchan, isCapable_zero, notCapable_zero, notCapable_ts6]
    cases hts6 : x.isCapable capTs6 <;> simp [sjoinLine]
  | false =>
    rw [if_neg (by decide), told_append, told_append, told_sendtoServer hx hlink hchan,
      told_sendtoServer hx hlink hchan, told_sendtoServer hx hlink hchan, isCapable_zero,
      notCapable_zero, notCapable_or, notCapable_ts6, notCapable_ssjoin]
    cases hts6 : x.isCapable capTs6 <;> cases hss : x.isCapable capSsjoin <;>
      simp [joinLine, ssjoinLine, sjoinLine]

theorem enterLocal_members (ch : Channel) (c : Nat) (now : Int) :
    (enterLocal ch c now).members.map Membership.clientP =
      [c] ++ ch.members.map Membership.clientP := by
  unfold enterLocal
  split <;> rfl

/-- A local user's join tells every server once. -/
theorem told_mJoinSends {name key : Bytes} {permitted invited : Bool} {now : Int} {p d : Nat}
    (hadd : Adds srv.table (mJoin cfg srv c source name key permitted invited now).table p d)
    (hname : ((mJoin cfg srv c source name key permitted invited now).table.chan p).chname.head? =
      some 35) {x : Link} (hx : x ∈ sl.links) (hlink : x.id ≠ source.link) :
    told x.id d (mJoinSends cfg me sl srv c source name key permitted invited now) = 1 := by
  unfold mJoin at hadd hname
  unfold mJoinSends
  split at hadd
  · exact absurd hadd not_adds_self
  · rename_i hok
    rw [if_neg hok] at hname ⊢
    cases hfind : findChannel srv.table name with
    | some q =>
      simp only [hfind] at hadd hname ⊢
      split at hadd
      · exact absurd hadd not_adds_self
      · rename_i hmember
        rw [if_neg hmember] at hname ⊢
        split at hadd
        · rename_i hcan
          rw [if_pos hcan] at hname ⊢
          obtain ⟨rfl, hd⟩ := hadd.setChan (fun _ _ => rfl) (Or.inl rfl) (enterLocal_members _ c now)
          rw [List.mem_singleton.mp hd]
          exact told_enterLocalSends hx hlink _ (by rwa [Table.chan_setChan] at hname)
        · exact absurd hadd not_adds_self
    | none =>
      simp only [hfind] at hadd hname ⊢
      rcases hget : getOrCreateChannel srv.table name now with ⟨t, _ | ⟨q, isnew⟩⟩
      · simp only [hget] at hadd
        exact absurd hadd not_adds_self
      · simp only [hget] at hadd hname ⊢
        obtain ⟨hother, hbefore⟩ := getOrCreateChannel_users hget
        have hbefore := hbefore.imp And.right And.right
        split at hadd
        · rename_i hcan
          rw [if_pos hcan] at hname ⊢
          obtain ⟨rfl, hd⟩ := hadd.setChan hother hbefore (enterLocal_members _ c now)
          rw [List.mem_singleton.mp hd]
          exact told_enterLocalSends hx hlink _ (by rwa [Table.chan_setChan] at hname)
        · -- The channel was created, but nobody entered.
          obtain rfl := hadd.eq hother
          rcases hbefore with rfl | hnil
          · exact absurd hadd not_adds_self
          · have hnone := hadd.1
            rw [users, hnil] at hnone
            split at hnone <;> cases hnone

theorem told_enterRemoteSends {x : Link} (hx : x ∈ sl.links) (hlink : x.id ≠ source.link)
    (h : Remote) (servptr : Bytes) (ts : Int) (keep : Bool) {chname : Bytes}
    (hname : chname.head? = some 35) :
    told x.id c (enterRemoteSends h sl c source servptr ts keep chname) =
      if h = .msJoin ∧ x.isCapable capSsjoin = true ∧ x.notCapable capTs6 = true then 2 else 1 := by
  have hchan : ∀ s ∈ some chname, s.head? = some 35 := fun s h => Option.some.inj h ▸ hname
  unfold enterRemoteSends
  cases h with
  | msJoin =>
    simp only
    rw [told_append, told_append, told_sendtoServer hx hlink hchan, told_sendtoServer hx hlink hchan,
      told_sendtoServer hx hlink hchan, isCapable_zero, notCapable_zero, notCapable_ts6]
    cases hts6 : x.isCapable capTs6 <;> cases hss : x.isCapable capSsjoin <;>
      simp [joinLine, ssjoinLine, sjoinLine]
  | mcSjoin =>
    simp only
    rw [told_append, told_sendtoServer hx hlink hchan, told_sendtoServer hx hlink hchan, isCapable_zero,
      notCapable_zero, notCapable_ssjoin]
    cases hss : x.isCapable capSsjoin <;> simp [ssjoinLine, sjoinLine]

/-- Who enters by a remote join: the user, unless it is in the channel. -/
theorem enterRemote_members (isnew : Bool) (newts : Int) (c : Nat) (ch : Channel) :
    ∃ entered : List Nat, (∀ d ∈ entered, d = c) ∧
      (enterRemote isnew newts c ch).members.map Membership.clientP =
        entered ++ ch.members.map Membership.clientP := by
  have hours : ∀ ch : Channel, (removeOurModes ch).members.map Membership.clientP =
      ch.members.map Membership.clientP := by
    intro ch
    unfold removeOurModes
    rw [List.map_map]
    rfl
  unfold enterRemote
  simp only
  split
  · split
    · exact ⟨[], nofun, rfl⟩
    · exact ⟨[c], fun d hd => List.mem_singleton.mp hd, rfl⟩
  · split
    · exact ⟨[], nofun, hours ch⟩
    · exact ⟨[c], fun d hd => List.mem_singleton.mp hd, congrArg (c :: ·) (hours ch)⟩

theorem enterRemote_chname (isnew : Bool) (newts : Int) (c : Nat) (ch : Channel) :
    (enterRemote isnew newts c ch).chname = ch.chname := by
  unfold enterRemote
  simp only
  split <;> split <;> rfl

/-- A remote user's join tells a server once, unless it is a `JOIN` and the server takes the
    short form without UIDs. -/
theorem told_msJoinSends {h : Remote} {servptr ts name : Bytes} {now : Int} {p d : Nat}
    (hadd : Adds srv.table (msJoin srv c ts name now).table p d)
    (hname : ((msJoin srv c ts name now).table.chan p).chname.head? = some 35) {x : Link}
    (hx : x ∈ sl.links) (hlink : x.id ≠ source.link) :
    told x.id d (msJoinSends h sl srv c source servptr ts name now) =
      if h = .msJoin ∧ x.isCapable capSsjoin = true ∧ x.notCapable capTs6 = true then 2 else 1 := by
  unfold msJoin at hadd hname
  unfold msJoinSends
  split at hadd
  · exact absurd hadd not_adds_self
  · rename_i hok
    rw [if_neg hok] at hname ⊢
    rcases hget : getOrCreateChannel srv.table name now with ⟨t, _ | ⟨q, isnew⟩⟩
    · simp only [hget] at hadd
      exact absurd hadd not_adds_self
    · simp only [hget] at hadd hname ⊢
      obtain ⟨hother, hbefore⟩ := getOrCreateChannel_users hget
      obtain ⟨entered, honly, hmembers⟩ := enterRemote_members isnew (atol ts) c (t.chan q)
      obtain ⟨rfl, hd⟩ := hadd.setChan hother (hbefore.imp And.right And.right) hmembers
      rw [honly d hd]
      rw [Table.chan_setChan, enterRemote_chname] at hname
      exact told_enterRemoteSends hx hlink h servptr _ _ hname

-- ============================================================================
-- SJOIN is forwarded
-- ============================================================================

/-- Who enters in the loop of `ms_sjoin` is named in the list. -/
theorem sjoinUsers_entered {link : Nat} {keep : Bool} (l : List Bytes) : ∀ st : Channel × Nat,
    ∃ entered : List Nat, (∀ d ∈ entered, ∃ s ∈ l, ∃ fl, sjoinTarget srv link s = some (d, fl)) ∧
      (l.foldl (sjoinUser srv link keep) st).1.members.map Membership.clientP =
        entered ++ st.1.members.map Membership.clientP ∧
      (l.foldl (sjoinUser srv link keep) st).2 = st.2 + entered.length := by
  induction l with
  | nil => exact fun st => ⟨[], nofun, rfl, rfl⟩
  | cons s l ih =>
    intro st
    rw [List.foldl_cons]
    obtain ⟨entered, hnamed, hmembers, hjoins⟩ := ih (sjoinUser srv link keep st s)
    have hlater : ∀ d ∈ entered, ∃ s' ∈ s :: l, ∃ fl, sjoinTarget srv link s' = some (d, fl) :=
      fun d hd => (hnamed d hd).imp fun s' h => ⟨List.mem_cons_of_mem s h.1, h.2⟩
    rw [hmembers, hjoins]
    unfold sjoinUser
    cases htarget : sjoinTarget srv link s with
    | none => exact ⟨entered, hlater, rfl, rfl⟩
    | some cf =>
      obtain ⟨d, fl⟩ := cf
      simp only
      split
      · exact ⟨entered, hlater, rfl, rfl⟩
      · refine ⟨entered ++ [d], ?_, ?_, ?_⟩
        · intro d' hd'
          rcases List.mem_append.mp hd' with hd' | hd'
          · exact hlater d' hd'
          · rw [List.mem_singleton.mp hd']
            exact ⟨s, List.mem_cons_self, fl, htarget⟩
        · rw [List.append_assoc]
          rfl
        · rw [List.length_append, List.length_singleton]
          omega

/-- Who enters by an `SJOIN` is named in its list, and counted. -/
theorem sjoinChannel_entered {m : Sjoin} (isnew : Bool) (newts : Int) (mode : Mode) (list : Bytes)
    (ch : Channel) :
    ∃ entered : List Nat,
      (∀ d ∈ entered, ∃ s ∈ sjoinUsers [] list, ∃ fl, sjoinTarget srv m.link s = some (d, fl)) ∧
      (sjoinChannel srv m isnew newts mode list ch).1.members.map Membership.clientP =
        entered ++ ch.members.map Membership.clientP ∧
      (sjoinChannel srv m isnew newts mode list ch).2 = entered.length := by
  obtain ⟨start, hstart, heq⟩ : ∃ start : Channel,
      start.members.map Membership.clientP = ch.members.map Membership.clientP ∧
      sjoinChannel srv m isnew newts mode list ch =
        let o := tsCompare isnew ch.channelts newts
        let st := (sjoinUsers [] list).foldl (sjoinUser srv m.link o.keepNewModes) (start, 0)
        if st.2 = 0 then st
        else if !o.keepOurModes && m.sourceId != [] then (removeBanLists st.1, st.2)
        else st := by
    refine ⟨_, ?_, rfl⟩
    show (if (tsCompare isnew ch.channelts newts).keepOurModes then _ else _ : Channel).members.map
      Membership.clientP = _
    split
    · rfl
    · unfold removeOurModes
      rw [List.map_map]
      rfl
  obtain ⟨entered, hnamed, hmembers, hjoins⟩ := @sjoinUsers_entered srv m.link
    (tsCompare isnew ch.channelts newts).keepNewModes (sjoinUsers [] list) (start, 0)
  refine ⟨entered, hnamed, ?_, ?_⟩
  · rw [← hstart, ← hmembers, heq]
    simp only
    split
    · rfl
    · split <;> rfl
  · rw [← Nat.zero_add entered.length, ← hjoins, heq]
    simp only
    split
    · rfl
    · split <;> rfl

/-- A user that is named in the list is in both buffers. -/
theorem sjoinEntry_of_target {link : Nat} {s : Bytes} {d : Nat} {fl : UInt8} (keep : Bool)
    (h : sjoinTarget srv link s = some (d, fl)) :
    ∃ e, sjoinEntry srv link keep s = some e ∧ e.1.user = d ∧ e.2.user = d := by
  unfold sjoinEntry
  cases hfind : findClient srv (statusPrefix 3 0 s).2 with
  | none =>
    unfold sjoinTarget at h
    simp only [hfind] at h
    cases h
  | some y =>
    rw [h]
    exact ⟨_, rfl, rfl, rfl⟩

/-- An `SJOIN` that brings a user in has it in its list, and counts it. -/
theorem sjoinPacked_of_adds {m : Sjoin} {source : Bytes} {now : Int} {p d : Nat}
    (hadd : Adds srv.table (msSjoin srv m now).table p d) :
    ∃ k, sjoinPacked srv m source now = some k ∧ k.joins ≠ 0 ∧
      ∃ e ∈ k.entries, e.1.user = d ∧ e.2.user = d := by
  unfold msSjoin at hadd
  unfold sjoinPacked
  cases hparse : sjoinParse m with
  | none =>
    rw [hparse] at hadd
    exact absurd hadd not_adds_self
  | some mu =>
    obtain ⟨mode, list⟩ := mu
    simp only [hparse] at hadd ⊢
    rcases hget : getOrCreateChannel srv.table m.name now with ⟨t, _ | ⟨q, isnew⟩⟩
    · simp only [hget] at hadd
      exact absurd hadd not_adds_self
    · simp only [hget] at hadd ⊢
      obtain ⟨hother, hbefore⟩ := getOrCreateChannel_users hget
      obtain ⟨entered, hnamed, hmembers, hjoins⟩ :=
        @sjoinChannel_entered srv m isnew (atol m.ts) mode list (t.chan q)
      by_cases hzero : (sjoinChannel srv m isnew (atol m.ts) mode list (t.chan q)).2 = 0
      · -- Nobody entered, and a new channel is gone.
        have hnobody : entered = [] := List.length_eq_zero_iff.mp (hjoins.symm.trans hzero)
        exact absurd hadd (not_adds_of_nobody And.right hother hbefore hmembers hnobody)
      · rw [if_neg (fun h => hzero h.1)] at hadd
        obtain ⟨rfl, hd⟩ := hadd.setChan hother (hbefore.imp And.right And.right) hmembers
        obtain ⟨s, hs, fl, htarget⟩ := hnamed d hd
        obtain ⟨e, hentry, huser⟩ := sjoinEntry_of_target
          (tsCompare isnew (t.chan p).channelts (atol m.ts)).keepNewModes htarget
        exact ⟨_, rfl, hzero, e, List.mem_filterMap.mpr ⟨s, hs, hentry⟩, huser⟩

theorem once_iff {P : Prop} [Decidable P] {n : Nat} : (if P then n else 0) = 1 ↔ P ∧ n = 1 := by
  by_cases h : P
  · rw [if_pos h, and_iff_right h]
  · rw [if_neg h]
    exact iff_of_false (by decide) fun hn => h hn.1

/-- An `SJOIN`: the packing has the user on one line of each kind. -/
theorem forwardedOnce_sjoin_iff {m : Sjoin} {source : Bytes} {now : Int} {p d : Nat}
    (hadd : Adds srv.table (msSjoin srv m now).table p d) :
    ForwardedOnce cfg me sl srv (.sjoin m source now) d ↔ Clear sl srv (.sjoin m source now) d := by
  obtain ⟨k, hk, hjoins, e, he, huser, huser'⟩ := @sjoinPacked_of_adds srv m source now p d hadd
  have hnick : (k.entries.map Prod.fst).any (·.user == d) = true :=
    List.any_eq_true.mpr ⟨e.1, List.mem_map_of_mem he, beq_iff_eq.mpr huser⟩
  have huid : (k.entries.map Prod.snd).any (·.user == d) = true :=
    List.any_eq_true.mpr ⟨e.2, List.mem_map_of_mem he, beq_iff_eq.mpr huser'⟩
  have hsome := @packUsers_isSome sl m.link k.hdrNick k.hdrUid k.entries Bufs.start
  have htold : ∀ sent, sjoinSends sl m.link k.hdrNick k.hdrUid k.entries k.joins = some sent →
      ∀ x ∈ sl.links, x.id ≠ m.link → (told x.id d sent = 1 ↔
        if x.isCapable capTs6 then
          HasRoom k.hdrUid idLen ∧
            Together (bufFull k.hdrUid idLen) Entry.width (·.user == d) 0 (k.entries.map Prod.snd)
        else
          HasRoom k.hdrNick nickLen ∧
            Together (bufFull k.hdrNick nickLen) Entry.width (·.user == d) 0 (k.entries.map Prod.fst)) := by
    intro sent hsent x hx hlink
    rw [told_sjoinSends hx hlink d hjoins hsent]
    by_cases hts6 : x.isCapable capTs6 = true
    · rw [if_pos hts6, if_pos hts6, once_iff]
      exact and_congr_right fun _ => marked_once_iff _ [] 0 rfl huid
    · rw [if_neg hts6, if_neg hts6, once_iff]
      exact and_congr_right fun _ => marked_once_iff _ [] 0 rfl hnick
  unfold ForwardedOnce Join.sends Clear msSjoinSends
  simp only [hk]
  constructor
  · rintro ⟨sent, hsent, hone⟩ k' hk'
    obtain rfl := Option.some.inj hk'
    split at hsent
    · obtain ⟨st, hst, -⟩ := Option.map_eq_some_iff.mp hsent
      obtain ⟨hwn, hwu⟩ := hsome.mp (by rw [hst]; rfl)
      exact ⟨hwn, hwu, fun x hx hlink =>
        (htold sent hsent x hx fun h => hlink (congrArg some h)).mp (hone x hx hlink)⟩
    · cases hsent
  · intro hclear
    obtain ⟨hwn, hwu, htogether⟩ := hclear k rfl
    have hfit : k.hdrNick.length < bufSize ∧ k.hdrUid.length < bufSize :=
      ⟨Nat.lt_of_sub_pos (room_pos_of_within (List.ne_nil_of_mem (List.mem_map_of_mem he)) hwn),
        Nat.lt_of_sub_pos (room_pos_of_within (List.ne_nil_of_mem (List.mem_map_of_mem he)) hwu)⟩
    obtain ⟨st, hst⟩ := Option.isSome_iff_exists.mp (hsome.mpr ⟨hwn, hwu⟩)
    rw [if_pos hfit]
    refine ⟨_, congrArg (Option.map _) hst, fun x hx hlink => ?_⟩
    exact (htold _ (congrArg (Option.map _) hst) x hx fun h => hlink (congrArg some h)).mpr
      (htogether x hx hlink)

end Joins

/-- A join that brings one user into a channel is told once to every other server iff it is
    clear. -/
theorem forwardedOnce_iff_clear {cfg : Config} {me : Me} {sl : ServList} {srv srv' : Server}
    {j : Join} {p c : Nat} (hstep : srv.step cfg j.action = some srv')
    (hadd : Adds srv.table srv'.table p c) (hname : (srv'.table.chan p).chname.head? = some 35) :
    ForwardedOnce cfg me sl srv j c ↔ Clear sl srv j c := by
  cases j with
  | user d name key permitted invited now =>
    obtain ⟨cl, hcl, hrun⟩ := Option.bind_eq_some_iff.mp hstep
    split at hrun
    · obtain rfl := Option.some.inj hrun
      refine ⟨fun _ => trivial, fun _ => ⟨_, congrArg (Option.map _) hcl, fun x hx hlink => ?_⟩⟩
      refine told_mJoinSends hadd hname hx fun h => hlink ?_
      rw [Join.link, hcl, h]
      rfl
    · cases hrun
  | remote h d servptr ts name now =>
    obtain ⟨cl, hcl, hrun⟩ := Option.bind_eq_some_iff.mp hstep
    split at hrun
    · obtain rfl := Option.some.inj hrun
      have htold : ∀ x ∈ sl.links, some x.id ≠ Join.link srv (.remote h d servptr ts name now) →
          (told x.id c (msJoinSends h sl srv d cl servptr ts name now) = 1 ↔
            ¬ (h = .msJoin ∧ x.isCapable capSsjoin = true ∧ x.notCapable capTs6 = true)) := by
        intro x hx hlink
        have hne : x.id ≠ cl.link := fun h => hlink (by rw [Join.link, hcl, h]; rfl)
        rw [told_msJoinSends hadd hname hx hne]
        split
        · rename_i hover
          exact ⟨nofun, fun hn => absurd hover hn⟩
        · rename_i hover
          exact ⟨fun _ => hover, fun _ => rfl⟩
      have honce : ForwardedOnce cfg me sl srv (.remote h d servptr ts name now) c ↔
          ∀ x ∈ sl.links, some x.id ≠ Join.link srv (.remote h d servptr ts name now) →
            told x.id c (msJoinSends h sl srv d cl servptr ts name now) = 1 := by
        have hsends : Join.sends cfg me sl srv (.remote h d servptr ts name now) =
            some (msJoinSends h sl srv d cl servptr ts name now) := congrArg (Option.map _) hcl
        unfold ForwardedOnce
        rw [hsends]
        exact ⟨fun ⟨sent, hs, hall⟩ => Option.some.inj hs ▸ hall, fun hall => ⟨_, rfl, hall⟩⟩
      rw [honce]
      cases h with
      | msJoin =>
        exact forall₃_congr fun x hx hlink => (htold x hx hlink).trans (by simp)
      | mcSjoin =>
        exact ⟨fun _ => trivial, fun _ x hx hlink => (htold x hx hlink).mpr (by simp)⟩
    · cases hrun
  | sjoin m source now =>
    unfold Join.action Server.step at hstep
    simp only at hstep
    split at hstep
    · obtain rfl := Option.some.inj hstep
      exact forwardedOnce_sjoin_iff hadd
    · cases hstep

/-- A server that knows `bob`. -/
def bobServer : Server := Reach.perform (Server.step plainConfig) Server.start (.introduce bob)

/-- `:bob JOIN 10 #a +`. -/
def bobJoin : Join := .remote .msJoin 0 [104, 117, 98] [49, 48] [35, 97] 20

/-- The link of `bob`, one with UIDs, and one with the given capabilities. -/
def threeLinks (caps : UInt32) : ServList where
  links := [⟨bob.link, capTs6⟩, ⟨7, capTs6⟩, ⟨8, caps⟩]
  nodup := (by decide : [bob.link, 7, 8].Nodup)

theorem bobJoin_adds :
    bobServer.step plainConfig bobJoin.action = some (msJoin bobServer 0 [49, 48] [35, 97] 20) ∧
      Adds bobServer.table (msJoin bobServer 0 [49, 48] [35, 97] 20).table 0 0 ∧
      ((msJoin bobServer 0 [49, 48] [35, 97] 20).table.chan 0).chname.head? = some 35 := by
  refine ⟨rfl, ⟨by decide, fun q hq => ?_⟩, by decide⟩
  have hlist : q ∉ (msJoin bobServer 0 [49, 48] [35, 97] 20).table.globalChannelList := by
    have h : (msJoin bobServer 0 [49, 48] [35, 97] 20).table.globalChannelList = [0] := by decide
    rw [h, List.mem_singleton]
    exact hq
  rw [users, if_neg hlist]
  rfl

/-- The join reaches a server with and one without UIDs once each. -/
theorem forwardedOnce_bob :
    ForwardedOnce plainConfig ⟨[109, 101], [48, 65, 65]⟩ (threeLinks 0) bobServer bobJoin 0 := by
  obtain ⟨hstep, hadd, hname⟩ := bobJoin_adds
  refine (forwardedOnce_iff_clear hstep hadd hname).mpr ?_
  have hall : (threeLinks 0).links.all fun x => !(x.isCapable capSsjoin && x.notCapable capTs6) := by
    decide
  intro x hx _ hboth
  have hx := List.all_eq_true.mp hall x hx
  rw [hboth.1, hboth.2] at hx
  cases hx

/-- A server that takes the short form without UIDs is told twice. -/
theorem not_forwardedOnce_ssjoin : ¬ ∀ (cfg : Config) (me : Me) (sl : ServList) (srv srv' : Server)
    (j : Join) (p c : Nat), srv.step cfg j.action = some srv' → Adds srv.table srv'.table p c →
    (srv'.table.chan p).chname.head? = some 35 → ForwardedOnce cfg me sl srv j c := by
  intro h
  obtain ⟨hstep, hadd, hname⟩ := bobJoin_adds
  obtain ⟨sent, hsent, hone⟩ := h plainConfig ⟨[109, 101], [48, 65, 65]⟩ (threeLinks capSsjoin) bobServer _
    bobJoin 0 0 hstep hadd hname
  have htwice : ((bobJoin.sends plainConfig ⟨[109, 101], [48, 65, 65]⟩ (threeLinks capSsjoin)
      bobServer).map (told 8 0)) = some 2 := by decide
  rw [hsent] at htwice
  have h8 := hone ⟨8, capSsjoin⟩ (by decide) (by decide)
  rw [Option.map_some, h8] at htwice
  cases htwice

end Bluebox.Forward
