/-
  Bluebox.Channel.LostTs

  What has to follow when an `SJOIN` wins a channel by its time stamp
  (`modules/core/m_join.c`): no member keeps a status, the lists are emptied, and
  the other servers are told.

  The statuses go first.  The lists and the lines come behind the loop over the
  users, which `ms_sjoin` leaves early when nobody has entered.
-/
import Bluebox.Channel.Forward
import Bluebox.Channel.Limit
import Bluebox.Channel.Announce

namespace Bluebox.LostTs

open Bluebox.Lib Bluebox.Chan Bluebox.Forward
open Bluebox.Limit (Wins)
open Bluebox.Announce (flagsOf listed settled sjoinChannel_flags msSjoin_chan)

-- ============================================================================
-- Acting on a lost time stamp
-- ============================================================================

/-- An `SJOIN` for the channel with the time stamp. -/
def Carries (ts : Int) (name : Bytes) (line : Line) : Prop :=
  ∃ source, sjoinStart source ts name <+: line.text

/-- The time stamp is acted on: nobody who was there has a status, the lists are empty, and
    every other server was sent an `SJOIN` with the new time stamp. -/
structure ActedOn (sl : ServList) (srv : Server) (m : Sjoin) (source : Bytes) (now : Int) (p : Nat) :
    Prop where
  stripped : ∀ c, (srv.table.chan p).isMember c = true →
    flagsOf ((msSjoin srv m now).table.chan p) c &&& Replay.statusFlags = 0
  emptied : ∀ k, ((msSjoin srv m now).table.chan p).list k = []
  sent : ∃ sent, msSjoinSends sl srv m source now = some sent ∧
    ∀ x ∈ sl.links, x.id ≠ m.link → ∃ line, (x.id, line) ∈ sent ∧ Carries (atol m.ts) m.name line

/-- The buffers hold the headers and their lines. -/
def Fits (k : Packed) : Prop :=
  (k.hdrNick.length < bufSize ∧ k.hdrUid.length < bufSize) ∧
    Within (bufFull k.hdrNick nickLen) Entry.width (bufSize - k.hdrNick.length) 0 (k.entries.map Prod.fst) ∧
    Within (bufFull k.hdrUid idLen) Entry.width (bufSize - k.hdrUid.length) 0 (k.entries.map Prod.snd)

/-- The buffer for a server is sent off before the end of the list. -/
def SentEarly (k : Packed) (x : Link) : Prop :=
  if x.isCapable capTs6 then Opens (bufFull k.hdrUid idLen) Entry.width 0 (k.entries.map Prod.snd)
  else Opens (bufFull k.hdrNick nickLen) Entry.width 0 (k.entries.map Prod.fst)

-- ============================================================================
-- Who is sent a line
-- ============================================================================

/-- Some line went to the server. -/
def Reached (x : Nat) (sent : List (Nat × Line)) : Prop := ∃ line, (x, line) ∈ sent

section Lines

variable {sl : ServList} {link : Nat} {hdrNick hdrUid : Bytes} {x : Link}

theorem reached_append {y : Nat} {a b : List (Nat × Line)} :
    Reached y (a ++ b) ↔ Reached y a ∨ Reached y b := by
  simp only [Reached, List.mem_append, exists_or]

theorem not_reached_nil {y : Nat} : ¬ Reached y [] := fun ⟨_, h⟩ => absurd h List.not_mem_nil

theorem link_unique (hx : x ∈ sl.links) {y : Link} (hy : y ∈ sl.links) (h : y.id = x.id) : y = x :=
  List.inj_on_of_nodup_map sl.nodup hy hx h

theorem reached_sendtoServer (hx : x ∈ sl.links) (hlink : x.id ≠ link) {caps nocaps : UInt32} {line : Line} :
    Reached x.id (sendtoServer sl link none caps nocaps line) ↔
      (x.isCapable caps && x.notCapable nocaps) = true := by
  unfold sendtoServer Reached
  rw [if_neg (by simp)]
  constructor
  · rintro ⟨line', hmem⟩
    obtain ⟨y, hy, heq⟩ := List.mem_map.mp hmem
    obtain ⟨hyl, hyc⟩ := List.mem_filter.mp hy
    rw [← link_unique hx hyl (Prod.mk.inj heq).1]
    rw [Bool.and_eq_true, Bool.and_eq_true] at hyc
    rw [hyc.1.2, hyc.2]
    rfl
  · intro hcaps
    refine ⟨line, List.mem_map.mpr ⟨x, List.mem_filter.mpr ⟨hx, ?_⟩, rfl⟩⟩
    rw [Bool.and_assoc, hcaps, bne_iff_ne.mpr hlink]
    rfl

theorem reached_flushed (hx : x ∈ sl.links) (hlink : x.id ≠ link) {hdr : Bytes} {longest : Nat}
    {caps nocaps : UInt32} (b : Buf) (e : Entry) :
    Reached x.id (flushed sl link hdr longest caps nocaps b e) ↔
      bufFull hdr longest (bufUsed b.entries) e = true ∧ (x.isCapable caps && x.notCapable nocaps) = true := by
  unfold flushed
  by_cases hfull : bufFull hdr longest (bufUsed b.entries) e = true
  · rw [if_pos hfull, reached_sendtoServer hx hlink]
    exact ⟨fun h => ⟨hfull, h⟩, And.right⟩
  · rw [if_neg hfull]
    exact ⟨fun h => absurd h not_reached_nil, fun h => absurd h.1 hfull⟩

/-- In the loop, a server is sent a line when its buffer is sent off. -/
theorem reached_packUsers (hx : x ∈ sl.links) (hlink : x.id ≠ link) (entries : List (Entry × Entry)) :
    ∀ {st st' : Bufs}, entries.foldlM (packUser sl link hdrNick hdrUid) st = some st' →
    (Reached x.id st'.sent ↔ Reached x.id st.sent ∨
      if x.isCapable capTs6 then
        Opens (bufFull hdrUid idLen) Entry.width (bufUsed st.uid.entries) (entries.map Prod.snd)
      else Opens (bufFull hdrNick nickLen) Entry.width (bufUsed st.nick.entries) (entries.map Prod.fst)) := by
  induction entries with
  | nil =>
    intro st st' h
    obtain rfl := Option.some.inj h
    refine ⟨Or.inl, fun h => h.resolve_right ?_⟩
    split
    · exact opens_nil
    · exact opens_nil
  | cons e entries ih =>
    intro st st' h
    rw [List.foldlM_cons] at h
    obtain ⟨st₁, hone, hrest⟩ := Option.bind_eq_some_iff.mp h
    rw [ih hrest, packUser_some hone, reached_append, reached_append, reached_flushed hx hlink,
      reached_flushed hx hlink, takes_uid, takes_nick, List.map_cons, List.map_cons, opens_cons, opens_cons,
      ← bufUsed_nextBuf, ← bufUsed_nextBuf]
    cases x.isCapable capTs6 with
    | true => simp [or_assoc]
    | false => simp [or_assoc]

/-- Every line that is sent is made of one of the two headers. -/
def FromHeaders (hdrNick hdrUid : Bytes) (sent : List (Nat × Line)) : Prop :=
  ∀ d ∈ sent, ∃ b, d.2 = bufLine hdrNick b ∨ d.2 = bufLine hdrUid b

theorem fromHeaders_append {a b : List (Nat × Line)} (ha : FromHeaders hdrNick hdrUid a)
    (hb : FromHeaders hdrNick hdrUid b) : FromHeaders hdrNick hdrUid (a ++ b) := fun d hd =>
  (List.mem_append.mp hd).elim (ha d) (hb d)

theorem fromHeaders_sendtoServer {caps nocaps : UInt32} {line : Line}
    (h : ∃ b, line = bufLine hdrNick b ∨ line = bufLine hdrUid b) :
    FromHeaders hdrNick hdrUid (sendtoServer sl link none caps nocaps line) := by
  intro d hd
  unfold sendtoServer at hd
  split at hd
  · exact absurd hd List.not_mem_nil
  · obtain ⟨y, -, rfl⟩ := List.mem_map.mp hd
    exact h

theorem fromHeaders_flushed {hdr : Bytes} {longest : Nat} {caps nocaps : UInt32}
    (h : hdr = hdrNick ∨ hdr = hdrUid) (b : Buf) (e : Entry) :
    FromHeaders hdrNick hdrUid (flushed sl link hdr longest caps nocaps b e) := by
  unfold flushed
  split
  · rcases h with rfl | rfl
    · exact fromHeaders_sendtoServer ⟨b, Or.inl rfl⟩
    · exact fromHeaders_sendtoServer ⟨b, Or.inr rfl⟩
  · exact fun d hd => absurd hd List.not_mem_nil

theorem fromHeaders_packUsers (entries : List (Entry × Entry)) : ∀ {st st' : Bufs},
    entries.foldlM (packUser sl link hdrNick hdrUid) st = some st' →
    FromHeaders hdrNick hdrUid st.sent → FromHeaders hdrNick hdrUid st'.sent := by
  induction entries with
  | nil =>
    intro st st' h hst
    obtain rfl := Option.some.inj h
    exact hst
  | cons e entries ih =>
    intro st st' h hst
    rw [List.foldlM_cons] at h
    obtain ⟨st₁, hone, hrest⟩ := Option.bind_eq_some_iff.mp h
    refine ih hrest ?_
    rw [packUser_some hone]
    refine fromHeaders_append (fromHeaders_append hst ?_) ?_
    · exact fromHeaders_flushed (Or.inl rfl) _ _
    · exact fromHeaders_flushed (Or.inr rfl) _ _

/-- The header of a line is not cut off before the name of the channel. -/
theorem carries_bufLine {source name modes : Bytes} {ts : Int}
    (hlen : (sjoinHeader source ts name modes).length < bufSize) (b : Buf) :
    Carries ts name (bufLine (sjoinHeader source ts name modes) b) := by
  have hstart : (sjoinStart source ts name).length ≤ 510 := by
    simp only [sjoinHeader, List.length_append, List.length_cons, bufSize] at hlen
    omega
  have hprefix : ∀ rest : Bytes, sjoinStart source ts name <+:
      ((sjoinHeader source ts name modes ++ rest).dropLast).take 510 := by
    intro rest
    unfold sjoinHeader
    rw [List.append_assoc, List.append_assoc, List.dropLast_append_of_ne_nil (by simp), List.take_append,
      List.take_of_length_le hstart]
    exact List.prefix_append _ _
  refine ⟨source, ?_⟩
  unfold bufLine
  split
  · have h := hprefix []
    rwa [List.append_nil] at h
  · exact hprefix _

/-- Behind the loop the rest of both buffers is sent, unless nobody entered. -/
theorem reached_sjoinSends (hx : x ∈ sl.links) (hlink : x.id ≠ link) {entries : List (Entry × Entry)}
    {joins : Nat} {sent : List (Nat × Line)}
    (h : sjoinSends sl link hdrNick hdrUid entries joins = some sent) :
    Reached x.id sent ↔ joins ≠ 0 ∨
      if x.isCapable capTs6 then Opens (bufFull hdrUid idLen) Entry.width 0 (entries.map Prod.snd)
      else Opens (bufFull hdrNick nickLen) Entry.width 0 (entries.map Prod.fst) := by
  obtain ⟨st, hst, hsent⟩ := Option.map_eq_some_iff.mp h
  have hpack := reached_packUsers hx hlink entries hst
  rw [← hsent]
  by_cases hjoins : joins = 0
  · rw [if_pos hjoins, hpack]
    exact ⟨fun h => Or.inr (h.resolve_left not_reached_nil), fun h => Or.inr (h.resolve_left fun hne => hne hjoins)⟩
  · rw [if_neg hjoins, reached_append, reached_append, reached_sendtoServer hx hlink,
      reached_sendtoServer hx hlink, takes_uid, takes_nick]
    refine ⟨fun _ => Or.inl hjoins, fun _ => ?_⟩
    cases x.isCapable capTs6 with
    | true => exact Or.inl (Or.inr rfl)
    | false => exact Or.inr rfl

theorem fromHeaders_sjoinSends {entries : List (Entry × Entry)} {joins : Nat} {sent : List (Nat × Line)}
    (h : sjoinSends sl link hdrNick hdrUid entries joins = some sent) : FromHeaders hdrNick hdrUid sent := by
  obtain ⟨st, hst, hsent⟩ := Option.map_eq_some_iff.mp h
  have hpack := fromHeaders_packUsers entries hst fun d hd => absurd hd List.not_mem_nil
  rw [← hsent]
  split
  · exact hpack
  · refine fromHeaders_append (fromHeaders_append hpack ?_) ?_
    · exact fromHeaders_sendtoServer ⟨_, Or.inr rfl⟩
    · exact fromHeaders_sendtoServer ⟨_, Or.inl rfl⟩

end Lines

-- ============================================================================
-- The channel
-- ============================================================================

section Channels

variable {srv : Server} {m : Sjoin} {ch : Channel}

/-- Nobody enters exactly when all users of the list are members. -/
theorem sjoinUsers_joins_iff {link : Nat} {keep : Bool} (users : List Bytes) : ∀ st : Channel × Nat,
    ((users.foldl (sjoinUser srv link keep) st).2 = st.2 ↔
      ∀ x ∈ listed srv link users, st.1.isMember x.1 = true) := by
  induction users with
  | nil => exact fun st => ⟨fun _ x hx => absurd hx List.not_mem_nil, fun _ => rfl⟩
  | cons s users ih =>
    intro st
    rw [List.foldl_cons]
    cases hs : sjoinTarget srv link s with
    | none =>
      have hskip : listed srv link (s :: users) = listed srv link users := List.filterMap_cons_none hs
      have hstay : sjoinUser srv link keep st s = st := by
        unfold sjoinUser
        rw [hs]
      rw [hskip, hstay]
      exact ih st
    | some x =>
      obtain ⟨d, fl⟩ := x
      have htake : listed srv link (s :: users) = (d, fl) :: listed srv link users :=
        List.filterMap_cons_some hs
      have hstep : sjoinUser srv link keep st s =
          if st.1.isMember d then st else (addUserToChannel st.1 d (sjoinStatus keep fl), st.2 + 1) := by
        unfold sjoinUser
        rw [hs]
      rw [htake, List.forall_mem_cons, hstep]
      cases hm : st.1.isMember d with
      | true =>
        rw [if_pos rfl, ih st]
        exact ⟨fun h => ⟨rfl, h⟩, And.right⟩
      | false =>
        have hle := (sjoinUsers_fields srv link keep users
          (addUserToChannel st.1 d (sjoinStatus keep fl), st.2 + 1)).2.2.2
        rw [if_neg Bool.false_ne_true]
        exact ⟨fun h => by rw [h] at hle; exact absurd hle (Nat.not_succ_le_self _),
          fun h => absurd h.1 Bool.false_ne_true⟩

/-- The users change no list. -/
theorem sjoinUsers_list {link : Nat} {keep : Bool} (k : BanType) (users : List Bytes) : ∀ st : Channel × Nat,
    (users.foldl (sjoinUser srv link keep) st).1.list k = st.1.list k := by
  induction users with
  | nil => exact fun _ => rfl
  | cons s users ih =>
    intro st
    rw [List.foldl_cons, ih]
    unfold sjoinUser
    split
    · rfl
    · split
      · rfl
      · cases k <;> rfl

/-- An `SJOIN` that wins empties the lists if somebody enters. -/
theorem sjoinChannel_lost {isnew : Bool} {newts : Int} {mode : Mode} {users : Bytes}
    (hlost : (tsCompare isnew ch.channelts newts).keepOurModes = false) (hid : m.sourceId ≠ []) :
    ((sjoinChannel srv m isnew newts mode users ch).2 = 0 ↔
      ∀ x ∈ listed srv m.link (sjoinUsers [] users), ch.isMember x.1 = true) ∧
    ∀ k, (sjoinChannel srv m isnew newts mode users ch).1.list k =
      if (sjoinChannel srv m isnew newts mode users ch).2 = 0 then ch.list k else [] := by
  obtain ⟨v, hmembers, hlist, heq⟩ := @Announce.sjoinChannel_eq srv m isnew newts mode users ch
  have hmember : ∀ c, v.isMember c = ch.isMember c := fun c =>
    (Announce.isMember_congr hmembers c).trans (Announce.isMember_settled _ ch c)
  have hjoins := @sjoinUsers_joins_iff srv m.link (tsCompare isnew ch.channelts newts).keepNewModes
    (sjoinUsers [] users) (v, 0)
  have hlists := fun k => @sjoinUsers_list srv m.link (tsCompare isnew ch.channelts newts).keepNewModes k
    (sjoinUsers [] users) (v, 0)
  rw [heq]
  generalize (sjoinUsers [] users).foldl _ (v, 0) = st at hjoins hlists ⊢
  simp only [hmember] at hjoins
  have hne : (!(tsCompare isnew ch.channelts newts).keepOurModes && m.sourceId != []) = true := by
    rw [hlost]
    simpa using hid
  unfold Announce.finished
  by_cases hzero : st.2 = 0
  · rw [if_pos hzero]
    exact ⟨hjoins, fun k => by rw [if_pos hzero, hlists, hlist]⟩
  · rw [if_neg hzero, if_pos hne]
    exact ⟨hjoins, fun k => by rw [if_neg hzero]; cases k <;> rfl⟩

/-- Nobody who was there has a status. -/
theorem flagsOf_lost {o : TsOutcome} (hlost : o.keepOurModes = false) (c : Nat) :
    flagsOf (settled o ch) c &&& Replay.statusFlags = 0 := by
  unfold settled
  rw [hlost, if_neg Bool.false_ne_true]
  unfold flagsOf
  rw [Announce.findMembership_removeOurModes]
  cases ch.findMembership c with
  | none => exact UInt8.zero_and
  | some x =>
    show x.flags &&& ~~~Replay.statusFlags &&& Replay.statusFlags = 0
    rw [UInt8.and_assoc]
    exact UInt8.and_zero

end Channels

-- ============================================================================
-- When it is acted on
-- ============================================================================

/-- What a winning `SJOIN` packs: both headers carry its time stamp. -/
theorem sjoinPacked_of_wins {srv : Server} {m : Sjoin} {mode : Mode} {users : Bytes} {p : Nat}
    (hparse : sjoinParse m = some (mode, users)) (hwins : Wins srv m p) (source : Bytes) (now : Int) :
    ∃ k modes source', sjoinPacked srv m source now = some k ∧
      k.hdrNick = sjoinHeader source (atol m.ts) m.name modes ∧
      k.hdrUid = sjoinHeader source' (atol m.ts) m.name modes ∧
      k.joins = (sjoinChannel srv m false (atol m.ts) mode users (srv.table.chan p)).2 := by
  unfold sjoinPacked
  simp only [hparse, hwins.getOrCreate (sjoinParse_name hparse) now, hwins.tsCompare]
  exact ⟨_, _, _, rfl, rfl, rfl, rfl⟩

/-- A time stamp that is lost is acted on completely exactly when the buffers hold the lines
    and somebody enters, or the lists were empty and the list was so long that every other
    server has been sent a part of it. -/
theorem actedOn_iff {sl : ServList} {srv : Server} {m : Sjoin} {source : Bytes} {now : Int} {mode : Mode}
    {users : Bytes} {p : Nat} (hparse : sjoinParse m = some (mode, users)) (hwins : Wins srv m p)
    (hid : m.sourceId ≠ []) :
    ActedOn sl srv m source now p ↔ ∃ k, sjoinPacked srv m source now = some k ∧ Fits k ∧
      ((∃ x ∈ listed srv m.link (sjoinUsers [] users), (srv.table.chan p).isMember x.1 = false) ∨
        ((∀ b, (srv.table.chan p).list b = []) ∧ ∀ x ∈ sl.links, x.id ≠ m.link → SentEarly k x)) := by
  have hlost : (tsCompare false (srv.table.chan p).channelts (atol m.ts)).keepOurModes = false := by
    rw [hwins.tsCompare]
  have hchan := msSjoin_chan hparse (hwins.getOrCreate (sjoinParse_name hparse) now)
  obtain ⟨hjoins, hlists⟩ := @sjoinChannel_lost srv m _ false (atol m.ts) mode users hlost hid
  obtain ⟨k, modes, source', hk, hnick, huid, hcount⟩ := sjoinPacked_of_wins hparse hwins source now
  rw [← hchan, ← hcount] at hlists
  rw [← hcount] at hjoins
  -- somebody enters
  have henters : k.joins ≠ 0 ↔
      ∃ x ∈ listed srv m.link (sjoinUsers [] users), (srv.table.chan p).isMember x.1 = false := by
    rw [ne_eq, hjoins]
    simp only [not_forall, Bool.not_eq_true, exists_prop]
  have hsends : ∀ sent, msSjoinSends sl srv m source now = some sent → Fits k ∧
      ∀ x ∈ sl.links, x.id ≠ m.link →
        ((∃ line, (x.id, line) ∈ sent ∧ Carries (atol m.ts) m.name line) ↔ k.joins ≠ 0 ∨ SentEarly k x) := by
    intro sent hsent
    unfold msSjoinSends at hsent
    simp only [hk] at hsent
    split at hsent
    · rename_i hlen
      have hfrom := fromHeaders_sjoinSends hsent
      obtain ⟨st, hst, -⟩ := Option.map_eq_some_iff.mp hsent
      refine ⟨⟨hlen, (packUsers_isSome k.entries Bufs.start).mp (by rw [hst]; rfl)⟩, fun x hx hlink => ?_⟩
      have hreach := reached_sjoinSends hx hlink hsent
      refine Iff.trans ⟨fun ⟨line, hline, _⟩ => ⟨line, hline⟩, fun ⟨line, hline⟩ => ?_⟩ hreach
      obtain ⟨l, hl⟩ := hfrom _ hline
      refine ⟨line, hline, ?_⟩
      rw [hnick, huid] at hl hlen
      rcases hl with hl | hl
      · rw [show line = _ from hl]
        exact carries_bufLine hlen.1 l
      · rw [show line = _ from hl]
        exact carries_bufLine hlen.2 l
    · cases hsent
  constructor
  · intro h
    obtain ⟨sent, hsent, hall⟩ := h.sent
    obtain ⟨hfits, hsent⟩ := hsends sent hsent
    refine ⟨k, hk, hfits, ?_⟩
    by_cases hzero : k.joins = 0
    · refine Or.inr ⟨fun b => ?_, fun x hx hlink => ?_⟩
      · have hb := hlists b
        rw [if_pos hzero] at hb
        exact hb.symm.trans (h.emptied b)
      · exact ((hsent x hx hlink).mp (hall x hx hlink)).resolve_left fun hne => hne hzero
    · exact Or.inl (henters.mp hzero)
  · rintro ⟨k', hk', hfits, hcase⟩
    obtain rfl := Option.some.inj (hk.symm.trans hk')
    obtain ⟨st, hst⟩ := Option.isSome_iff_exists.mp
      ((@packUsers_isSome sl m.link k.hdrNick k.hdrUid k.entries Bufs.start).mpr hfits.2)
    obtain ⟨sent, hsome⟩ : ∃ sent, msSjoinSends sl srv m source now = some sent := by
      unfold msSjoinSends
      simp only [hk, if_pos hfits.1]
      exact ⟨_, congrArg (Option.map _) hst⟩
    refine ⟨fun c hc => ?_, fun b => ?_, sent, hsome, fun x hx hlink => ?_⟩
    · rw [hchan, sjoinChannel_flags, if_pos hc]
      exact flagsOf_lost hlost c
    · rw [hlists b]
      rcases hcase with hnew | ⟨hempty, -⟩
      · rw [if_neg (henters.mpr hnew)]
      · split
        · exact hempty b
        · rfl
    · refine ((hsends _ hsome).2 x hx hlink).mpr ?_
      exact hcase.imp henters.mpr fun h => h.2 x hx hlink

-- ============================================================================
-- Two lists of users
-- ============================================================================

/-- `alice` made `#a` at 20 and set a ban there; `bob` is not in it. -/
def banServer : Server :=
  [Action.introduce bob, .introduce alice, .join 1 [35, 97] [] true false 20,
    .mode [35, 97] (modeArgs 1 [[43, 98], [120]])].foldl (Reach.perform (Server.step plainConfig)) Server.start

theorem banServer_reach : Reach (Server.step plainConfig) anyStep Server.start banServer :=
  Reach.performed_all _ .init

/-- `SJOIN 10 #a + :users`, from the server of `bob`. -/
def lowSjoin (users : Bytes) : Sjoin := ⟨1, [49, 65, 65], [49, 48], [35, 97], [43], [users]⟩

theorem lowSjoin_wins (users : Bytes) : Wins banServer (lowSjoin users) 0 := by
  have hts : (banServer.table.chan 0).channelts = 20 := by decide
  have hten : atol (lowSjoin users).ts = 10 := (by decide : atol [49, 48] = 10)
  refine ⟨?_, ?_, ?_, ?_⟩
  · show banServer.table.lookup (lookupName [35, 97]) = some 0
    decide
  · rw [hten]
    decide
  · rw [hts]
    decide
  · rw [hten, hts]
    decide

/-- With `bob` in the list, all is done. -/
theorem actedOn_bob : ActedOn (threeLinks 0) banServer (lowSjoin [98, 111, 98]) [104] 30 0 := by
  have hparse : sjoinParse (lowSjoin [98, 111, 98]) = some (Mode.none, [98, 111, 98]) := by decide
  have hpacked : (sjoinPacked banServer (lowSjoin [98, 111, 98]) [104] 30).map
      (fun k => (k.hdrNick, k.hdrUid, k.entries, k.joins)) = some
        (sjoinHeader [104] 10 [35, 97] [43], sjoinHeader [49, 65, 65] 10 [35, 97] [43],
          [(⟨[98, 111, 98], 0⟩, ⟨bob.id, 0⟩)], 1) := by
    decide
  obtain ⟨⟨hdrNick, hdrUid, entries, joins⟩, hk, heq⟩ := Option.map_eq_some_iff.mp hpacked
  cases heq
  refine (actedOn_iff hparse (lowSjoin_wins _) (by decide)).mpr ⟨_, hk, ⟨by decide, ?_⟩, Or.inl ?_⟩
  · exact (@packUsers_isSome (threeLinks 0) 1 _ _ _ Bufs.start).mp (by decide)
  · exact ⟨(0, 0), by decide, by decide⟩

/-- With a list of users that nobody knows, the ban stays and no server is told. -/
theorem not_actedOn :
    ¬ ∀ (sl : ServList) (srv : Server) (m : Sjoin) (source : Bytes) (now : Int) (mode : Mode)
      (users : Bytes) (p : Nat), Reach (Server.step plainConfig) anyStep Server.start srv →
      m.wellFormed = true → sjoinParse m = some (mode, users) → Wins srv m p → m.sourceId ≠ [] →
      ActedOn sl srv m source now p := by
  intro h
  have hparse : sjoinParse (lowSjoin [122]) = some (Mode.none, [122]) := by decide
  have hacted := h (threeLinks 0) banServer (lowSjoin [122]) [104] 30 _ _ 0 banServer_reach (by decide) hparse
    (lowSjoin_wins _) (by decide)
  have hban := hacted.emptied .ban
  revert hban
  decide

end Bluebox.LostTs
