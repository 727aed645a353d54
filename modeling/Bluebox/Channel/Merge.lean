/-
  Bluebox.Channel.Merge

  `SJOIN`s of one channel that arrive in any order.  The modes of a channel form
  a join semilattice, and `ms_sjoin` merges by time stamp as
  `Bluebox.Lib.Stamped` does, so the outcome is the least time stamp with the
  join of the modes that came with it.

  This needs the channel to be found again by the next message, which a name of
  `CHANNELLEN` bytes or more is not.
-/
import Bluebox.Lib.Stamped
import Bluebox.Channel.Run

namespace Bluebox.Chan

open Bluebox.Lib

-- ============================================================================
-- Modes as a semilattice
-- ============================================================================

theorem Mode.join_limit (a b : Mode) : (a.join b).limit = max a.limit b.limit := by
  simp only [Mode.join]
  split <;> omega

instance : Std.Commutative Mode.join where
  comm a b := by
    have hlimit : (a.join b).limit = (b.join a).limit := by
      rw [Mode.join_limit, Mode.join_limit, max_comm]
    simp only [Mode.join] at hlimit ⊢
    rw [UInt32.or_comm, hlimit, strMax_comm]

instance : Std.Associative Mode.join where
  assoc a b c := by
    have hlimit : ((a.join b).join c).limit = (a.join (b.join c)).limit := by
      simp only [Mode.join_limit, max_assoc]
    simp only [Mode.join] at hlimit ⊢
    rw [UInt32.or_assoc, hlimit, strMax_assoc]

/-- Joining with no modes only lifts a negative limit. -/
theorem Mode.join_none {m : Mode} (h : 0 ≤ m.limit) : m.join Mode.none = m := by
  have hlimit : ¬ (0 : Int) > m.limit := by omega
  unfold Mode.join Mode.none
  rw [UInt32.or_zero, strMax_nil, if_neg hlimit]

-- ============================================================================
-- One SJOIN
-- ============================================================================

section Users

variable (srv : Server) (link : Nat) (keep : Bool)

/-- The users change neither the name nor the modes nor the time stamp. -/
theorem sjoinUsers_fields (users : List Bytes) : ∀ st : Channel × Nat,
    (users.foldl (sjoinUser srv link keep) st).1.chname = st.1.chname ∧
    (users.foldl (sjoinUser srv link keep) st).1.mode = st.1.mode ∧
    (users.foldl (sjoinUser srv link keep) st).1.channelts = st.1.channelts ∧
    st.2 ≤ (users.foldl (sjoinUser srv link keep) st).2 := by
  induction users with
  | nil => exact fun st => ⟨rfl, rfl, rfl, Nat.le_refl _⟩
  | cons u users ih =>
    intro st
    obtain ⟨hname, hmode, hts, hle⟩ := ih (sjoinUser srv link keep st u)
    rw [List.foldl_cons, hname, hmode, hts]
    have hone : (sjoinUser srv link keep st u).1.chname = st.1.chname ∧
        (sjoinUser srv link keep st u).1.mode = st.1.mode ∧
        (sjoinUser srv link keep st u).1.channelts = st.1.channelts ∧
        st.2 ≤ (sjoinUser srv link keep st u).2 := by
      unfold sjoinUser
      split
      · exact ⟨rfl, rfl, rfl, Nat.le_refl _⟩
      · split
        · exact ⟨rfl, rfl, rfl, Nat.le_refl _⟩
        · exact ⟨rfl, rfl, rfl, Nat.le_succ _⟩
    exact ⟨hone.1, hone.2.1, hone.2.2.1, Nat.le_trans hone.2.2.2 hle⟩

/-- The first user that exists joins an empty channel. -/
theorem sjoinUsers_joins (users : List Bytes) : ∀ st : Channel × Nat, st.1.members = [] →
    (∃ u ∈ users, (sjoinTarget srv link u).isSome) →
    (users.foldl (sjoinUser srv link keep) st).2 ≠ 0 := by
  induction users with
  | nil =>
    rintro st - ⟨u, hu, -⟩
    exact absurd hu List.not_mem_nil
  | cons v users ih =>
    rintro st hempty ⟨u, hu, hsome⟩
    rw [List.foldl_cons]
    cases htarget : sjoinTarget srv link v with
    | none =>
      have hstay : sjoinUser srv link keep st v = st := by
        unfold sjoinUser
        rw [htarget]
      rw [hstay]
      rcases List.mem_cons.mp hu with rfl | hu
      · rw [htarget] at hsome
        cases hsome
      · exact ih st hempty ⟨u, hu, hsome⟩
    | some x =>
      obtain ⟨c, fl⟩ := x
      have hadd : (sjoinUser srv link keep st v).2 = st.2 + 1 := by
        unfold sjoinUser
        rw [htarget]
        simp [Channel.isMember, Channel.findMembership, hempty]
      have hle := (sjoinUsers_fields srv link keep users (sjoinUser srv link keep st v)).2.2.2
      omega

end Users

section One

variable {srv : Server} {m : Sjoin} {isnew : Bool} {newts : Int} {mode : Mode} {users : Bytes}
variable {ch : Channel}

/-- The name, the modes and the time stamp an `SJOIN` leaves. -/
theorem sjoinChannel_fields :
    (sjoinChannel srv m isnew newts mode users ch).1.chname = ch.chname ∧
    (sjoinChannel srv m isnew newts mode users ch).1.mode
      = sjoinMode (tsCompare isnew ch.channelts newts) mode ch.mode ∧
    (sjoinChannel srv m isnew newts mode users ch).1.channelts
      = (tsCompare isnew ch.channelts newts).ts := by
  unfold sjoinChannel
  generalize tsCompare isnew ch.channelts newts = t
  dsimp only
  generalize hv : ({ (if t.keepOurModes = true then { ch with channelts := t.ts }
      else removeOurModes { ch with channelts := t.ts }) with
    mode := sjoinMode t mode ch.mode } : Channel) = v
  have hname : v.chname = ch.chname := by
    rw [← hv]
    split <;> rfl
  have hmode : v.mode = sjoinMode t mode ch.mode := by rw [← hv]
  have hts : v.channelts = t.ts := by
    rw [← hv]
    split <;> rfl
  obtain ⟨huname, humode, huts, -⟩ :=
    sjoinUsers_fields srv m.link t.keepNewModes (sjoinUsers [] users) (v, 0)
  split
  · exact ⟨huname.trans hname, humode.trans hmode, huts.trans hts⟩
  · split
    · exact ⟨huname.trans hname, humode.trans hmode, huts.trans hts⟩
    · exact ⟨huname.trans hname, humode.trans hmode, huts.trans hts⟩

theorem sjoinChannel_joins (hempty : ch.members = [])
    (husers : ∃ u ∈ sjoinUsers [] users, (sjoinTarget srv m.link u).isSome) :
    (sjoinChannel srv m isnew newts mode users ch).2 ≠ 0 := by
  unfold sjoinChannel
  generalize tsCompare isnew ch.channelts newts = t
  dsimp only
  have hjoins : ((sjoinUsers [] users).foldl (sjoinUser srv m.link t.keepNewModes)
      ({ (if t.keepOurModes = true then { ch with channelts := t.ts }
          else removeOurModes { ch with channelts := t.ts }) with
        mode := sjoinMode t mode ch.mode }, 0)).2 ≠ 0 := by
    refine sjoinUsers_joins _ _ _ _ _ ?_ husers
    dsimp only
    split
    · exact hempty
    · simp [removeOurModes, hempty]
  rw [if_neg hjoins]
  split
  · exact hjoins
  · exact hjoins

end One

-- ============================================================================
-- The channel of a name
-- ============================================================================

/-- The server has one channel of that name, with this time stamp and these
    modes. -/
structure Holds (srv : Server) (name : Bytes) (v : Int × Mode) (p : Nat) : Prop where
  ok : TableOk srv.table
  listed : p ∈ srv.table.globalChannelList
  named : irccmp name (srv.table.chan p).chname = 0
  only : ∀ q ∈ srv.table.globalChannelList, irccmp name (srv.table.chan q).chname = 0 → q = p
  channelts : (srv.table.chan p).channelts = v.1
  mode : (srv.table.chan p).mode = v.2

theorem Holds.lookup {srv : Server} {name s : Bytes} {v : Int × Mode} {p : Nat}
    (h : Holds srv name v p) (hname : NoNul name) (hs : NoNul s) (heq : irccmp name s = 0) :
    srv.table.lookup s = some p := by
  have hswap := (irccmp_eq_zero_comm _ _).mp heq
  refine Table.lookup_eq h.ok hs h.listed ?_ fun q hq hqe => ?_
  · exact irccmp_eq_zero_trans hs hname (h.ok.noNul p h.listed) hswap h.named
  · exact h.only q hq (irccmp_eq_zero_trans hname hs (h.ok.noNul q hq) heq hqe)

/-- Writing the channel back. -/
theorem holds_setChan (srv : Server) {t : Table} {name : Bytes} {p : Nat} {ch : Channel}
    (hok : TableOk t) (hp : p ∈ t.globalChannelList) (hnamed : irccmp name (t.chan p).chname = 0)
    (honly : ∀ q ∈ t.globalChannelList, irccmp name (t.chan q).chname = 0 → q = p)
    (hch : ch.chname = (t.chan p).chname) :
    Holds { srv with table := t.setChan p ch } name (ch.channelts, ch.mode) p := by
  have hsame : ∀ q, ((t.setChan p ch).chan q).chname = (t.chan q).chname := by
    intro q
    by_cases hq : q = p
    · subst hq
      simp only [Table.setChan, Function.update_self, hch]
    · simp only [Table.setChan, Function.update_of_ne hq]
  have hself := t.chan_setChan p ch
  refine ⟨hok.each hsame, hp, ?_, fun q hq hqe => honly q hq ?_, ?_, ?_⟩
  · show irccmp name ((t.setChan p ch).chan p).chname = 0
    rw [hsame]
    exact hnamed
  · rw [← hsame q]
    exact hqe
  · show ((t.setChan p ch).chan p).channelts = ch.channelts
    rw [hself]
  · show ((t.setChan p ch).chan p).mode = ch.mode
    rw [hself]

/-- The time stamp and the modes of a message. -/
def Sjoin.stamped (m : Sjoin) : Int × Mode :=
  (atol m.ts, ((sjoinParse m).map Prod.fst).getD Mode.none)

/-- A message for the channel, with well-formed parameters, that brings a user who
    can join. -/
structure Sjoin.Accepted (srv : Server) (name : Bytes) (m : Sjoin) : Prop where
  wellFormed : m.wellFormed = true
  named : irccmp name m.name = 0
  parsed : ∃ mode users, sjoinParse m = some (mode, users) ∧
    ∃ u ∈ sjoinUsers [] users, (sjoinTarget srv m.link u).isSome

/-- Its time stamp is not zero and its limit not negative. -/
structure Sjoin.Joins (srv : Server) (name : Bytes) (m : Sjoin) : Prop
    extends Sjoin.Accepted srv name m where
  ts : atol m.ts ≠ 0
  limit : 0 ≤ m.stamped.2.limit

theorem sjoinTarget_congr {srv srv' : Server} (h : srv'.clients = srv.clients) (link : Nat)
    (s : Bytes) : sjoinTarget srv' link s = sjoinTarget srv link s := by
  simp only [sjoinTarget, findClient, Server.search, h]

theorem Sjoin.Joins.congr {srv srv' : Server} {name : Bytes} {m : Sjoin}
    (h : srv'.clients = srv.clients) (hm : m.Joins srv name) : m.Joins srv' name := by
  obtain ⟨mode, users, hparse, u, hu, hsome⟩ := hm.parsed
  refine ⟨⟨hm.wellFormed, hm.named, mode, users, hparse, u, hu, ?_⟩, hm.ts, hm.limit⟩
  rw [sjoinTarget_congr h]
  exact hsome

theorem msSjoin_same_clients (srv : Server) (m : Sjoin) (now : Int) :
    (msSjoin srv m now).clients = srv.clients := by
  unfold msSjoin
  repeat' split
  all_goals rfl

theorem irccmp_length {s t : Bytes} (hs : NoNul s) (ht : NoNul t) (h : irccmp s t = 0) :
    s.length = t.length := by
  have hmap := congrArg List.length ((irccmp_eq_zero_iff hs ht).mp h)
  rwa [List.length_map, List.length_map] at hmap

section Messages

variable {srv : Server} {name : Bytes} {m : Sjoin}

theorem sjoinParse_name {mode : Mode} {users : Bytes} (h : sjoinParse m = some (mode, users)) :
    m.name ≠ [] := by
  rintro hnil
  unfold sjoinParse at h
  rw [hnil] at h
  split at h <;> cases h

theorem Sjoin.stamped_eq {mode : Mode} {users : Bytes} (h : sjoinParse m = some (mode, users)) :
    m.stamped = (atol m.ts, mode) := by
  unfold Sjoin.stamped
  rw [h]
  rfl

/-- The first message makes the channel. -/
theorem msSjoin_new (hok : TableOk srv.table) (hname : NoNul name)
    (hlen : name.length < channelLen) (hnone : srv.table.lookup m.name = none)
    (hm : m.Accepted srv name) (now : Int) :
    Holds (msSjoin srv m now) name (receive Mode.join Mode.none none m.stamped) srv.table.next := by
  obtain ⟨mode, users, hparse, husers⟩ := hm.parsed
  have hnul := noNul_of_checkChannelName (sjoinParse_valid hm.wellFormed hparse).2
  have hmlen : m.name.length < channelLen := by
    rw [← irccmp_length hname hnul hm.named]
    exact hlen
  have hget : getOrCreateChannel srv.table m.name now
      = (srv.table.add m.name now, some (srv.table.next, true)) := by
    have hcut : lookupName m.name = m.name := lookupName_of_lt hmlen
    rw [getOrCreateChannel_new (sjoinParse_name hparse) (by rw [hcut, hnone]), hcut]
  have hchan : (srv.table.add m.name now).chan srv.table.next = allocateChannel m.name now :=
    Table.chan_add ..
  obtain ⟨hnew, honly⟩ := Table.only_add hok hnul hmlen hnone now hm.named hname
  have hjoins := @sjoinChannel_joins srv m true (atol m.ts) mode users
    ((srv.table.add m.name now).chan srv.table.next) (by rw [hchan]; rfl) husers
  obtain ⟨hchname, hmode, hts⟩ := @sjoinChannel_fields srv m true (atol m.ts) mode users
    ((srv.table.add m.name now).chan srv.table.next)
  have hholds := holds_setChan srv (hok.add hnul now) List.mem_cons_self hnew honly hchname
  have hvalue : ((tsCompare true ((srv.table.add m.name now).chan srv.table.next).channelts
        (atol m.ts)).ts,
      sjoinMode (tsCompare true ((srv.table.add m.name now).chan srv.table.next).channelts
        (atol m.ts)) mode ((srv.table.add m.name now).chan srv.table.next).mode)
      = receive Mode.join Mode.none none (atol m.ts, mode) := by
    rw [hchan]
    rfl
  rw [hmode, hts, hvalue] at hholds
  unfold msSjoin
  simp only [hparse, hget, hjoins, false_and, if_false]
  rw [Sjoin.stamped_eq hparse]
  exact hholds

/-- Any later one merges into it. -/
theorem msSjoin_again {v : Int × Mode} {p : Nat} (h : Holds srv name v p) (hname : NoNul name)
    (hv : v.1 ≠ 0) (hm : m.Joins srv name) (now : Int) :
    Holds (msSjoin srv m now) name (receive Mode.join Mode.none (some v) m.stamped) p := by
  obtain ⟨mode, users, hparse, husers⟩ := hm.parsed
  have hnul := noNul_of_checkChannelName (sjoinParse_valid hm.wellFormed hparse).2
  have hlook : srv.table.lookup (lookupName m.name) = some p := by
    have hlen : m.name.length < channelLen := by
      rw [← irccmp_length hname hnul hm.named,
        irccmp_length hname (h.ok.noNul p h.listed) h.named]
      exact h.ok.length_lt p h.listed
    rw [lookupName_of_lt hlen]
    exact h.lookup hname hnul hm.named
  have hget : getOrCreateChannel srv.table m.name now = (srv.table, some (p, false)) :=
    getOrCreateChannel_found (sjoinParse_name hparse) hlook now
  obtain ⟨hchname, hmode, hts⟩ := @sjoinChannel_fields srv m false (atol m.ts) mode users
    (srv.table.chan p)
  have hholds := holds_setChan srv h.ok h.listed h.named h.only hchname
  rw [hmode, hts, h.channelts, h.mode] at hholds
  unfold msSjoin
  simp only [hparse, hget, Bool.false_eq_true, and_false, if_false]
  rw [Sjoin.stamped_eq hparse]
  have hreceive : receive Mode.join Mode.none (some v) (atol m.ts, mode)
      = ((tsCompare false v.1 (atol m.ts)).ts, sjoinMode (tsCompare false v.1 (atol m.ts)) mode v.2) := by
    have hts := hm.ts
    unfold receive tsCompare sjoinMode
    simp only [Bool.false_eq_true, if_false, hts, hv, or_self]
    by_cases heq : atol m.ts = v.1
    · simp [heq]
    · by_cases hlt : atol m.ts < v.1
      · simp [heq, hlt]
      · simp [heq, hlt]
  rw [hreceive]
  exact hholds

end Messages

-- ============================================================================
-- All of them
-- ============================================================================

/-- Process messages, each at some time. -/
def Server.runSjoins (srv : Server) (l : List (Sjoin × Int)) : Server :=
  l.foldl (fun s x => msSjoin s x.1 x.2) srv

/-- The channel is found under the name, with the least time stamp of the
    messages and the join of the modes of those that carry it. -/
def Merged (srv : Server) (name : Bytes) (msgs : List Sjoin) : Prop :=
  ∃ p t, findChannel srv.table name = some p ∧ LeastStamp t (msgs.map Sjoin.stamped) ∧
    (srv.table.chan p).channelts = t ∧
    (srv.table.chan p).mode = joinAt Mode.join Mode.none t (msgs.map Sjoin.stamped)

theorem runSjoins_holds {name : Bytes} (hname : NoNul name) (l : List (Sjoin × Int)) :
    ∀ {srv : Server} {v : Int × Mode} {p : Nat}, Holds srv name v p → v.1 ≠ 0 →
      (∀ x ∈ l, x.1.Joins srv name) →
      ∃ v', (l.map fun x => x.1.stamped).foldl
          (fun s m => some (receive Mode.join Mode.none s m)) (some v) = some v' ∧
        Holds (srv.runSjoins l) name v' p := by
  induction l with
  | nil => exact fun h _ _ => ⟨_, rfl, h⟩
  | cons x l ih =>
    intro srv v p h hv hall
    have hx := hall x List.mem_cons_self
    have hnext := msSjoin_again h hname hv hx x.2
    refine ih hnext ?_ fun y hy => ?_
    · show (receive Mode.join Mode.none (some v) x.1.stamped).1 ≠ 0
      unfold receive
      dsimp only
      split
      · exact hv
      · split
        · exact hx.ts
        · exact hv
    · exact (hall y (List.mem_cons_of_mem _ hy)).congr (msSjoin_same_clients srv x.1 x.2)

/-- Messages for a channel the server does not have, with a name that is stored
    whole. -/
theorem runSjoins_merged {srv : Server} {name : Bytes} {l : List (Sjoin × Int)}
    (hok : TableOk srv.table) (hname : NoNul name) (hlen : name.length < channelLen)
    (hnone : findChannel srv.table name = none) (hne : l ≠ [])
    (hall : ∀ x ∈ l, x.1.Joins srv name) : Merged (srv.runSjoins l) name (l.map Prod.fst) := by
  cases l with
  | nil => exact absurd rfl hne
  | cons x l =>
    have hx := hall x List.mem_cons_self
    obtain ⟨mode, users, hparse, -⟩ := hx.parsed
    have hnul := noNul_of_checkChannelName (sjoinParse_valid hx.wellFormed hparse).2
    have hnil : name ≠ [] := by
      rintro rfl
      have hlen := irccmp_length hname hnul hx.named
      exact sjoinParse_name hparse (List.length_eq_zero_iff.mp hlen.symm)
    have hlook : srv.table.lookup x.1.name = none := by
      rw [findChannel, if_neg hnil] at hnone
      cases hl : srv.table.lookup x.1.name with
      | none => rfl
      | some q =>
        obtain ⟨hq, hqe⟩ := Table.lookup_some hok hl
        exact absurd (irccmp_eq_zero_trans hname hnul (hok.noNul q hq) hx.named hqe)
          (Table.lookup_none hok hname hnone q hq)
    have hfirst := msSjoin_new hok hname hlen hlook hx.toAccepted x.2
    obtain ⟨v, hv, hholds⟩ := runSjoins_holds hname l hfirst hx.ts fun y hy =>
      (hall y (List.mem_cons_of_mem _ hy)).congr (msSjoin_same_clients srv x.1 x.2)
    -- the library says what the messages come to
    have hunit : ∀ s ∈ ((x :: l).map Prod.fst).map Sjoin.stamped, s.2.join Mode.none = s.2 := by
      intro s hs
      rw [List.map_map] at hs
      obtain ⟨y, hy, rfl⟩ := List.mem_map.mp hs
      exact Mode.join_none (hall y hy).limit
    obtain ⟨t, ht, heq⟩ := receiveAll_eq Mode.join Mode.none hunit (List.cons_ne_nil _ _)
    rw [List.map_map] at heq
    have hvt := Option.some.inj (hv.symm.trans heq)
    subst hvt
    refine ⟨_, t, ?_, ht, hholds.channelts, ?_⟩
    · rw [findChannel, if_neg hnil]
      exact hholds.lookup hname hname (irccmp_self name)
    · rw [List.map_map]
      exact hholds.mode

theorem runSjoins_tableOk {srv : Server} {l : List (Sjoin × Int)} (hok : TableOk srv.table)
    (hall : ∀ x ∈ l, x.1.wellFormed = true) (cfg : Config) : TableOk (srv.runSjoins l).table := by
  induction l generalizing srv with
  | nil => exact hok
  | cons x l ih =>
    have hstep : Changes cfg srv.client anyMask srv.table (msSjoin srv x.1 x.2).table :=
      msSjoin_changes (hall x List.mem_cons_self)
    exact ih (hstep.tableOk hok) fun y hy => hall y (List.mem_cons_of_mem _ hy)

/-- A channel whose name is too long is not found after any messages. -/
theorem not_merged_of_long {srv : Server} {name : Bytes} {msgs : List Sjoin} (hok : TableOk srv.table)
    (hname : NoNul name) (hlen : channelLen ≤ name.length) : ¬ Merged srv name msgs := by
  rintro ⟨p, t, hfind, -⟩
  rw [findChannel] at hfind
  split at hfind
  · cases hfind
  · rw [Table.lookup_long hok hname hlen] at hfind
    cases hfind

/-- Messages for one channel that the server does not have come to the same in
    every order exactly when the name is shorter than `CHANNELLEN`. -/
theorem sjoins_merge_iff {cfg : Config} {srv : Server}
    (hrun : Reach (Server.step cfg) anyStep Server.start srv) {name : CStr} {msgs : List Sjoin}
    (hnone : findChannel srv.table name.bytes = none) (hne : msgs ≠ [])
    (hall : ∀ m ∈ msgs, m.Joins srv name.bytes) :
    (∀ l : List (Sjoin × Int), (l.map Prod.fst).Perm msgs →
      Merged (srv.runSjoins l) name.bytes msgs) ↔ name.bytes.length < channelLen := by
  have hok := (Server.reachable_of_run hrun).tableOk
  constructor
  · intro h
    by_contra hlong
    have hperm : ((msgs.map fun m => (m, (0 : Int))).map Prod.fst).Perm msgs := by
      rw [List.map_map]
      exact List.Perm.of_eq (List.map_id' msgs)
    refine not_merged_of_long ?_ name.noNul (Nat.not_lt.mp hlong) (h _ hperm)
    refine runSjoins_tableOk hok (fun x hx => ?_) cfg
    obtain ⟨m, hm, rfl⟩ := List.mem_map.mp hx
    exact (hall m hm).wellFormed
  · intro hlen l hperm
    have hl : l ≠ [] := by
      rintro rfl
      exact hne hperm.symm.eq_nil
    have hmem : ∀ x ∈ l, x.1.Joins srv name.bytes := fun x hx =>
      hall x.1 (hperm.mem_iff.mp (List.mem_map_of_mem hx))
    obtain ⟨p, t, hfind, hleast, hts, hmode⟩ :=
      runSjoins_merged hok name.noNul hlen hnone hl hmem
    have hstamps := hperm.map Sjoin.stamped
    refine ⟨p, t, hfind, hleast.perm hstamps, hts, ?_⟩
    rw [hmode]
    exact joinAt_perm Mode.join Mode.none t hstamps

-- ============================================================================
-- A server with one remote user
-- ============================================================================

/-- The server that knows him. -/
def bobServer : Server := { Server.start with clients := [(0, bob)], nextClient := 1 }

theorem bobServer_reach : Reach (Server.step plainConfig) anyStep Server.start bobServer :=
  .next (a := .introduce bob) .init trivial rfl

/-- `SJOIN ts name modes :@bob`. -/
def bobSjoin (ts name modes : Bytes) : Sjoin := ⟨1, [49, 65, 65], ts, name, modes, [[64, 98, 111, 98]]⟩

/-- `+n` at 20 and `+t` at 10. -/
def bobMessages (name : Bytes) : List Sjoin :=
  [bobSjoin [50, 48] name [43, 110], bobSjoin [49, 48] name [43, 116]]

/-- In both orders the channel keeps the lower time stamp and its mode. -/
theorem sjoins_merge_two :
    Merged (bobServer.runSjoins ((bobMessages [35, 97]).map fun m => (m, 30))) [35, 97]
      (bobMessages [35, 97]) ∧
    Merged (bobServer.runSjoins ((bobMessages [35, 97]).reverse.map fun m => (m, 30))) [35, 97]
      (bobMessages [35, 97]) := by
  have hall : ∀ m ∈ bobMessages [35, 97], m.Joins bobServer [35, 97] := by
    intro m hm
    rcases List.mem_pair.mp hm with rfl | rfl
    · exact ⟨⟨by decide, by decide, ⟨modeNoprivmsgs, 0, []⟩, [64, 98, 111, 98], by decide,
        [64, 98, 111, 98], by decide, by decide⟩, by decide, by decide⟩
    · exact ⟨⟨by decide, by decide, ⟨modeTopiclimit, 0, []⟩, [64, 98, 111, 98], by decide,
        [64, 98, 111, 98], by decide, by decide⟩, by decide, by decide⟩
  have hmerged := (@sjoins_merge_iff plainConfig bobServer bobServer_reach ⟨[35, 97], by decide⟩ _
    rfl (List.cons_ne_nil _ _) hall).mpr (by decide)
  refine ⟨hmerged _ ?_, hmerged _ ?_⟩
  · exact List.Perm.refl _
  · exact List.Perm.swap _ _ _

/-- The same for a channel with a name of 200 bytes: each message makes a channel
    of its own. -/
theorem not_merged_after_long_name :
    ¬ ∀ (srv : Server) (name : CStr) (msgs : List Sjoin),
      Reach (Server.step plainConfig) anyStep Server.start srv →
      findChannel srv.table name.bytes = none → msgs ≠ [] →
      (∀ m ∈ msgs, m.Joins srv name.bytes) →
      ∀ l : List (Sjoin × Int), (l.map Prod.fst).Perm msgs →
        Merged (srv.runSjoins l) name.bytes msgs := by
  intro h
  have hjoins : ∀ m ∈ bobMessages longName.bytes, m.Joins bobServer longName.bytes := by
    intro m hm
    rcases List.mem_pair.mp hm with rfl | rfl
    · exact ⟨⟨by decide, by decide, ⟨modeNoprivmsgs, 0, []⟩, [64, 98, 111, 98], by decide,
      [64, 98, 111, 98], by decide, by decide⟩, by decide, by decide⟩
    · exact ⟨⟨by decide, by decide, ⟨modeTopiclimit, 0, []⟩, [64, 98, 111, 98], by decide,
      [64, 98, 111, 98], by decide, by decide⟩, by decide, by decide⟩
  have hmerged := h bobServer longName (bobMessages longName.bytes) bobServer_reach
    (by decide) (List.cons_ne_nil _ _) hjoins
    ((bobMessages longName.bytes).map fun m => (m, 10)) (by decide +kernel)
  refine not_merged_of_long ?_ longName.noNul (by decide +kernel) hmerged
  refine runSjoins_tableOk tableOk_start (fun x hx => ?_) plainConfig
  obtain ⟨m, hm, rfl⟩ := List.mem_map.mp hx
  exact (hjoins m hm).wellFormed

end Bluebox.Chan
