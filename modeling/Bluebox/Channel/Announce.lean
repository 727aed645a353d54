/-
  Bluebox.Channel.Announce

  The statuses that come with the users of an `SJOIN` (`modules/core/m_join.c`).
  `ms_sjoin` gives them to the users that enter, and tells the local members in
  `MODE` lines of four parameters each.

  The lines go by the list of users alone: what they tell of a user who was a
  member before, or who is listed again, is not what happens to it.
-/
import Mathlib.Data.List.Count
import Bluebox.Channel.FinalMode

namespace Bluebox.Announce

open Bluebox.Lib Bluebox.Chan
open Bluebox.FinalMode (lineStart readLine readLetters)

-- ============================================================================
-- The lines
-- ============================================================================

/-- A status as a line tells it: the letter and the user. -/
abbrev Given := UInt8 × Nat

/-- `modebuf` and `para` of `ms_sjoin`, and the lines that were sent. -/
structure Batch where
  sent : List (List Given)
  cur : List Given

/-- A letter with its parameter. -/
def Batch.put (b : Batch) (letter : UInt8) (c : Nat) : Batch := { b with cur := b.cur ++ [(letter, c)] }

/-- The line is sent when its parameters are used up. -/
def Batch.flush (b : Batch) : Batch :=
  if maxModeParams ≤ b.cur.length then ⟨b.sent ++ [b.cur], []⟩ else b

/-- The letters of one user. -/
def announceUser (b : Batch) (c : Nat) (fl : UInt8) : Batch :=
  Batch.flush <|
    if fl &&& chflChanop ≠ 0 then
      let b := b.put 111 c
      let b := if fl &&& chflHalfop ≠ 0 then b.flush.put 104 c else b
      if fl &&& chflVoice ≠ 0 then b.flush.put 118 c else b
    else if fl &&& chflHalfop ≠ 0 then
      let b := b.put 104 c
      if fl &&& chflVoice ≠ 0 then b.flush.put 118 c else b
    else if fl &&& chflVoice ≠ 0 then b.put 118 c
    else b

/-- One entry of the list; users that are not behind the link are skipped. -/
def announceEntry (srv : Server) (link : Nat) (keepNewModes : Bool) (b : Batch) (s : Bytes) : Batch :=
  match sjoinTarget srv link s with
  | none => b
  | some (c, fl) => announceUser b c (sjoinStatus keepNewModes fl)

/-- The lines for the users of an `SJOIN`. -/
def announceUsers (srv : Server) (link : Nat) (keepNewModes : Bool) (users : List Bytes) :
    List (List Given) :=
  let b := users.foldl (announceEntry srv link keepNewModes) ⟨[], []⟩
  if b.cur = [] then b.sent else b.sent ++ [b.cur]

/-- The `MODE` lines of `ms_sjoin` with statuses. -/
def msSjoinLines (srv : Server) (m : Sjoin) (now : Int) : List (List Given) :=
  match sjoinParse m with
  | none => []
  | some (_, users) =>
    match getOrCreateChannel srv.table m.name now with
    | (_, none) => []
    | (t, some (p, isnew)) =>
      announceUsers srv m.link (tsCompare isnew (t.chan p).channelts (atol m.ts)).keepNewModes
        (sjoinUsers [] users)

/-- `:%s MODE %s %s %s %s %s %s`. -/
def statusLine (source chname : Bytes) (name : Nat → Bytes) (l : List Given) : Bytes :=
  lineStart source chname ++ (43 :: l.map (·.1) ++
    ((List.range maxModeParams).map fun i => (l[i]?).elim [] fun x => name x.2).flatMap (32 :: ·))

-- ============================================================================
-- What the lines tell
-- ============================================================================

/-- The three statuses: letter and flag. -/
def statusModes : List (UInt8 × UInt8) := [(111, chflChanop), (104, chflHalfop), (118, chflVoice)]

/-- The letters of flags. -/
def letters (fl : UInt8) : Bytes := (statusModes.filter fun f => fl &&& f.2 != 0).map (·.1)

/-- All that was told, and the rest that will be. -/
def Batch.told (b : Batch) : List Given := b.sent.flatten ++ b.cur

/-- No line has more than four parameters, and there is room for another. -/
structure Batch.Ok (b : Batch) : Prop where
  sent : ∀ l ∈ b.sent, l.length ≤ maxModeParams
  room : b.cur.length < maxModeParams

section Batches

variable {b : Batch} {c : Nat} {letter fl : UInt8}

theorem Batch.told_put (b : Batch) (letter : UInt8) (c : Nat) :
    (b.put letter c).told = b.told ++ [(letter, c)] := by
  simp only [Batch.told, Batch.put, List.append_assoc]

theorem Batch.told_flush (b : Batch) : b.flush.told = b.told := by
  unfold Batch.flush
  split
  · simp only [Batch.told, List.flatten_append, List.flatten_singleton, List.append_nil]
  · rfl

/-- A full line is sent, whether there is one or not there is room after it. -/
theorem Batch.ok_flush_put (h : b.Ok) : (b.put letter c).flush.Ok := by
  have hlen : (b.put letter c).cur.length = b.cur.length + 1 := by
    simp only [Batch.put, List.length_append, List.length_singleton]
  have hroom := h.room
  unfold Batch.flush
  split
  · refine ⟨fun l hl => ?_, Nat.zero_lt_succ 3⟩
    rcases List.mem_append.mp hl with hl | hl
    · exact h.sent l hl
    · rw [List.mem_singleton.mp hl, hlen]
      omega
  · exact ⟨h.sent, by omega⟩

theorem Batch.flush_of_ok (h : b.Ok) : b.flush = b := by
  have hroom := h.room
  unfold Batch.flush
  rw [if_neg (by omega)]

/-- One user is told all its letters, and there is room for the next. -/
theorem announceUser_spec (h : b.Ok) (c : Nat) (fl : UInt8) :
    (announceUser b c fl).told = b.told ++ (letters fl).map (·, c) ∧ (announceUser b c fl).Ok := by
  have hput := fun {b : Batch} (h : b.Ok) letter => @Batch.ok_flush_put b c letter h
  unfold announceUser letters statusModes
  by_cases ho : fl &&& chflChanop = 0
  · by_cases hh : fl &&& chflHalfop = 0
    · by_cases hv : fl &&& chflVoice = 0
      · simp [ho, hh, hv, Batch.flush_of_ok h, h]
      · simp [ho, hh, hv, Batch.told_flush, Batch.told_put, hput h]
    · by_cases hv : fl &&& chflVoice = 0
      · simp [ho, hh, hv, Batch.told_flush, Batch.told_put, hput h]
      · simp [ho, hh, hv, Batch.told_flush, Batch.told_put, hput (hput h _)]
  · by_cases hh : fl &&& chflHalfop = 0
    · by_cases hv : fl &&& chflVoice = 0
      · simp [ho, hh, hv, Batch.told_flush, Batch.told_put, hput h]
      · simp [ho, hh, hv, Batch.told_flush, Batch.told_put, hput (hput h _)]
    · by_cases hv : fl &&& chflVoice = 0
      · simp [ho, hh, hv, Batch.told_flush, Batch.told_put, hput (hput h _)]
      · simp [ho, hh, hv, Batch.told_flush, Batch.told_put, hput (hput (hput h _) _)]

end Batches

/-- The users a list names, with their statuses. -/
def listed (srv : Server) (link : Nat) (users : List Bytes) : List (Nat × UInt8) :=
  users.filterMap (sjoinTarget srv link)

/-- The statuses a list of users is told with. -/
def toldOf (keepNewModes : Bool) (l : List (Nat × UInt8)) : List Given :=
  l.flatMap fun x => (letters (sjoinStatus keepNewModes x.2)).map (·, x.1)

section Lines

variable (srv : Server) (link : Nat) (keep : Bool)

theorem announce_foldl (users : List Bytes) : ∀ b : Batch, b.Ok →
    (users.foldl (announceEntry srv link keep) b).told = b.told ++ toldOf keep (listed srv link users) ∧
    (users.foldl (announceEntry srv link keep) b).Ok := by
  induction users with
  | nil => exact fun b h => ⟨(List.append_nil _).symm, h⟩
  | cons s users ih =>
    intro b h
    rw [List.foldl_cons]
    cases hs : sjoinTarget srv link s with
    | none =>
      have hskip : listed srv link (s :: users) = listed srv link users :=
        List.filterMap_cons_none hs
      have hstay : announceEntry srv link keep b s = b := by
        unfold announceEntry
        rw [hs]
      rw [hskip, hstay]
      exact ih b h
    | some x =>
      obtain ⟨c, fl⟩ := x
      have htake : listed srv link (s :: users) = (c, fl) :: listed srv link users :=
        List.filterMap_cons_some hs
      obtain ⟨htold, hok⟩ := announceUser_spec h c (sjoinStatus keep fl)
      obtain ⟨hrest, hok'⟩ := ih (announceUser b c (sjoinStatus keep fl)) hok
      have hstep : announceEntry srv link keep b s = announceUser b c (sjoinStatus keep fl) := by
        unfold announceEntry
        rw [hs]
      rw [hstep]
      refine ⟨?_, hok'⟩
      rw [htake, hrest, htold, List.append_assoc]
      rfl

/-- The lines tell each status of each listed user, in order. -/
theorem announceUsers_flatten (users : List Bytes) :
    (announceUsers srv link keep users).flatten = toldOf keep (listed srv link users) := by
  obtain ⟨htold, -⟩ := announce_foldl srv link keep users ⟨[], []⟩ ⟨by simp, by decide⟩
  unfold announceUsers
  dsimp only
  generalize users.foldl (announceEntry srv link keep) ⟨[], []⟩ = b at htold ⊢
  unfold Batch.told at htold
  split
  · rename_i hnil
    rw [hnil, List.append_nil] at htold
    exact htold
  · rw [List.flatten_append, List.flatten_singleton]
    exact htold

/-- `para` has room for them. -/
theorem announceUsers_length (users : List Bytes) :
    ∀ l ∈ announceUsers srv link keep users, l.length ≤ maxModeParams := by
  obtain ⟨-, hok⟩ := announce_foldl srv link keep users ⟨[], []⟩ ⟨by simp, by decide⟩
  unfold announceUsers
  dsimp only
  generalize users.foldl (announceEntry srv link keep) ⟨[], []⟩ = b at hok ⊢
  split
  · exact hok.sent
  · intro l hl
    rcases List.mem_append.mp hl with hl | hl
    · exact hok.sent l hl
    · rw [List.mem_singleton.mp hl]
      exact hok.room.le

end Lines

-- ============================================================================
-- What the users get
-- ============================================================================

/-- The flags of a user in a channel. -/
def flagsOf (ch : Channel) (c : Nat) : UInt8 := ((ch.findMembership c).map Membership.flags).getD 0

section Users

variable {srv : Server} {link : Nat} {keep : Bool} {ch : Channel}

theorem isMember_add (ch : Channel) (c d : Nat) (fl : UInt8) :
    (addUserToChannel ch d fl).isMember c = (d == c || ch.isMember c) := by
  simp only [Channel.isMember, Channel.findMembership, addUserToChannel, List.find?_cons]
  cases hd : d == c with
  | true => rfl
  | false => rfl

theorem flagsOf_add (ch : Channel) (c d : Nat) (fl : UInt8) :
    flagsOf (addUserToChannel ch d fl) c = if d = c then fl else flagsOf ch c := by
  simp only [flagsOf, Channel.findMembership, addUserToChannel, List.find?_cons]
  by_cases hd : d = c
  · rw [if_pos hd, beq_iff_eq.mpr hd]
    rfl
  · rw [if_neg hd, beq_eq_false_iff_ne.mpr hd]

theorem flagsOf_of_not_member {c : Nat} (h : ch.isMember c = false) : flagsOf ch c = 0 := by
  have hnone : ch.findMembership c = none := by simpa [Channel.isMember] using h
  unfold flagsOf
  rw [hnone]
  rfl

/-- The flags a list gives to users that were not there: those of the first mention. -/
def firstFlags (keepNewModes : Bool) (l : List (Nat × UInt8)) (c : Nat) : UInt8 :=
  ((l.find? (·.1 == c)).map fun x => sjoinStatus keepNewModes x.2).getD 0

theorem sjoinUsers_flags (users : List Bytes) (c : Nat) : ∀ st : Channel × Nat,
    flagsOf (users.foldl (sjoinUser srv link keep) st).1 c =
      if st.1.isMember c then flagsOf st.1 c else firstFlags keep (listed srv link users) c := by
  induction users with
  | nil =>
    intro st
    cases hm : st.1.isMember c with
    | true => rfl
    | false => exact flagsOf_of_not_member hm
  | cons s users ih =>
    intro st
    rw [List.foldl_cons, ih]
    cases hs : sjoinTarget srv link s with
    | none =>
      have hskip : listed srv link (s :: users) = listed srv link users := List.filterMap_cons_none hs
      have hstay : sjoinUser srv link keep st s = st := by
        unfold sjoinUser
        rw [hs]
      rw [hskip, hstay]
    | some x =>
      obtain ⟨d, fl⟩ := x
      have htake : listed srv link (s :: users) = (d, fl) :: listed srv link users :=
        List.filterMap_cons_some hs
      have hstep : sjoinUser srv link keep st s =
          if st.1.isMember d then st else (addUserToChannel st.1 d (sjoinStatus keep fl), st.2 + 1) := by
        unfold sjoinUser
        rw [hs]
      rw [htake, hstep]
      by_cases hc : d = c
      · subst hc
        cases hm : st.1.isMember d with
        | true => rw [if_pos rfl, hm, if_pos rfl, if_pos rfl]
        | false =>
          rw [if_neg Bool.false_ne_true, isMember_add, beq_self_eq_true, Bool.true_or, if_pos rfl,
            flagsOf_add, if_pos rfl, if_neg Bool.false_ne_true]
          simp [firstFlags]
      · have hfirst : firstFlags keep ((d, fl) :: listed srv link users) c =
            firstFlags keep (listed srv link users) c := by
          unfold firstFlags
          rw [List.find?_cons_of_neg (by simpa using hc)]
        rw [hfirst]
        cases hm : st.1.isMember d with
        | true => rw [if_pos rfl]
        | false =>
          rw [if_neg Bool.false_ne_true, isMember_add, beq_eq_false_iff_ne.mpr hc, Bool.false_or,
            flagsOf_add, if_neg hc]

/-- The channel once the time stamps were compared. -/
def settled (o : TsOutcome) (ch : Channel) : Channel := if o.keepOurModes then ch else removeOurModes ch

theorem findMembership_removeOurModes (ch : Channel) (c : Nat) :
    (removeOurModes ch).findMembership c = (ch.findMembership c).map fun m =>
      { m with flags := m.flags &&& ~~~(chflChanop ||| chflHalfop ||| chflVoice) } := by
  unfold Channel.findMembership removeOurModes
  rw [List.find?_map]
  rfl

theorem isMember_settled (o : TsOutcome) (ch : Channel) (c : Nat) :
    (settled o ch).isMember c = ch.isMember c := by
  unfold settled
  split
  · rfl
  · unfold Channel.isMember
    rw [findMembership_removeOurModes, Option.isSome_map]

/-- Nobody gains anything by that. -/
theorem flagsOf_settled (o : TsOutcome) {bit : UInt8} {c : Nat} (h : flagsOf ch c &&& bit = 0) :
    flagsOf (settled o ch) c &&& bit = 0 := by
  unfold settled
  split
  · exact h
  · unfold flagsOf at h ⊢
    rw [findMembership_removeOurModes]
    cases hm : ch.findMembership c with
    | none => exact UInt8.zero_and
    | some x =>
      rw [hm] at h
      show x.flags &&& ~~~(chflChanop ||| chflHalfop ||| chflVoice) &&& bit = 0
      have hx : x.flags &&& bit = 0 := h
      rw [UInt8.and_assoc, UInt8.and_comm _ bit, ← UInt8.and_assoc, hx, UInt8.zero_and]

/-- The end of an `SJOIN`, behind the users. -/
def finished (o : TsOutcome) (sourceId : Bytes) (st : Channel × Nat) : Channel × Nat :=
  if st.2 = 0 then st
  else if !o.keepOurModes && sourceId != [] then (removeBanLists st.1, st.2)
  else st

theorem finished_members (o : TsOutcome) (sourceId : Bytes) (st : Channel × Nat) :
    (finished o sourceId st).1.members = st.1.members := by
  unfold finished
  split
  · rfl
  · split <;> rfl

/-- An `SJOIN`: the users come into the settled channel. -/
theorem sjoinChannel_eq {m : Sjoin} (isnew : Bool) (newts : Int) (mode : Mode) (users : Bytes)
    (ch : Channel) : ∃ v : Channel,
      v.members = (settled (tsCompare isnew ch.channelts newts) ch).members ∧
      (∀ k, v.list k = ch.list k) ∧
      sjoinChannel srv m isnew newts mode users ch =
        finished (tsCompare isnew ch.channelts newts) m.sourceId ((sjoinUsers [] users).foldl
          (sjoinUser srv m.link (tsCompare isnew ch.channelts newts).keepNewModes) (v, 0)) := by
  refine ⟨_, ?_, fun k => ?_, rfl⟩
  · unfold settled
    split <;> rfl
  · split <;> cases k <;> rfl

theorem isMember_congr {ch' : Channel} (h : ch'.members = ch.members) (c : Nat) :
    ch'.isMember c = ch.isMember c := by
  unfold Channel.isMember Channel.findMembership
  rw [h]

theorem flagsOf_congr {ch' : Channel} (h : ch'.members = ch.members) (c : Nat) :
    flagsOf ch' c = flagsOf ch c := by
  unfold flagsOf Channel.findMembership
  rw [h]

/-- The flags a user has after an `SJOIN`. -/
theorem sjoinChannel_flags {m : Sjoin} (isnew : Bool) (newts : Int) (mode : Mode) (users : Bytes)
    (ch : Channel) (c : Nat) :
    flagsOf (sjoinChannel srv m isnew newts mode users ch).1 c =
      if ch.isMember c then flagsOf (settled (tsCompare isnew ch.channelts newts) ch) c
      else firstFlags (tsCompare isnew ch.channelts newts).keepNewModes
        (listed srv m.link (sjoinUsers [] users)) c := by
  obtain ⟨v, hmembers, -, heq⟩ := @sjoinChannel_eq srv m isnew newts mode users ch
  rw [heq, flagsOf_congr (finished_members _ _ _), sjoinUsers_flags, isMember_congr hmembers,
    isMember_settled, flagsOf_congr hmembers]

end Users

-- ============================================================================
-- Letters and flags
-- ============================================================================

/-- The flags of an entry are statuses. -/
theorem statusPrefix_status (n : Nat) : ∀ (fl : UInt8) (s : Bytes), fl &&& ~~~Replay.statusFlags = 0 →
    (statusPrefix n fl s).1 &&& ~~~Replay.statusFlags = 0 := by
  have hor : ∀ {x y : UInt8}, x &&& ~~~Replay.statusFlags = 0 → y &&& ~~~Replay.statusFlags = 0 →
      (x ||| y) &&& ~~~Replay.statusFlags = 0 := by
    intro x y hx hy
    rw [← UInt8.toNat_inj, UInt8.toNat_and, UInt8.toNat_or, Nat.and_or_distrib_right, ← UInt8.toNat_and,
      ← UInt8.toNat_and, hx, hy]
    rfl
  induction n with
  | zero => exact fun fl s h => h
  | succ n ih =>
    intro fl s h
    cases s with
    | nil => exact h
    | cons c r =>
      rw [statusPrefix]
      split
      · exact ih _ _ (hor h (by decide))
      · split
        · exact ih _ _ (hor h (by decide))
        · split
          · exact ih _ _ (hor h (by decide))
          · exact ih _ _ h

theorem listed_status {srv : Server} {link : Nat} {users : List Bytes} :
    ∀ x ∈ listed srv link users, x.2 &&& ~~~Replay.statusFlags = 0 := by
  intro x hx
  obtain ⟨s, -, hs⟩ := List.mem_filterMap.mp hx
  unfold sjoinTarget at hs
  dsimp only at hs
  split at hs
  · cases hs
  · split at hs
    · rw [← Option.some.inj hs]
      exact statusPrefix_status 3 0 s (by decide)
    · cases hs

/-- A status is told once if it is there. -/
theorem count_letters {f : UInt8 × UInt8} (hf : f ∈ statusModes) (fl : UInt8) :
    (letters fl).count f.1 = if fl &&& f.2 = 0 then 0 else 1 := by
  have hnodup : (letters fl).Nodup := ((by decide : (statusModes.map (·.1)).Nodup).sublist (List.filter_sublist.map _))
  have hone : ∀ g ∈ statusModes, g.1 = f.1 → g = f := by
    have hall : (statusModes.all fun g => statusModes.all fun f => decide (g.1 = f.1 → g = f)) = true := by decide
    exact fun g hg => of_decide_eq_true (List.all_eq_true.mp (List.all_eq_true.mp hall g hg) f hf)
  split
  · rename_i hzero
    refine List.count_eq_zero.mpr fun hmem => ?_
    obtain ⟨g, hg, heq⟩ := List.mem_map.mp hmem
    obtain ⟨hg, hset⟩ := List.mem_filter.mp hg
    obtain rfl := hone g hg heq
    simp [hzero] at hset
  · rename_i hset
    exact List.count_eq_one_of_mem hnodup (List.mem_map.mpr ⟨f, List.mem_filter.mpr ⟨hf, by simpa using hset⟩, rfl⟩)

/-- Only the bits that are flags count. -/
theorem and_not_of_flags {fl s m : UInt8} (hfl : fl &&& ~~~m = 0) : fl &&& ~~~s = fl &&& ~~~(s &&& m) := by
  rw [← UInt8.toBitVec_inj, UInt8.toBitVec_and, UInt8.toBitVec_and, UInt8.toBitVec_not, UInt8.toBitVec_not, UInt8.toBitVec_and,
    BitVec.not_and, BitVec.and_or_distrib_left]
  have hzero : fl.toBitVec &&& ~~~m.toBitVec = 0 := congrArg UInt8.toBitVec hfl
  rw [hzero]
  exact BitVec.or_zero.symm

/-- A set of statuses is part of the flags if each of them is. -/
theorem and_not_eq_zero {fl s : UInt8} (hfl : fl &&& ~~~Replay.statusFlags = 0) :
    fl &&& ~~~s = 0 ↔ ∀ f ∈ statusModes, fl &&& f.2 ≠ 0 → s &&& f.2 ≠ 0 := by
  have hall : ∀ x y : Fin 8, UInt8.ofNat x.val &&& ~~~UInt8.ofNat y.val = 0 ↔
      (statusModes.all fun f => decide (UInt8.ofNat x.val &&& f.2 ≠ 0 → UInt8.ofNat y.val &&& f.2 ≠ 0)) = true := by
    decide
  have hlt : ∀ x : UInt8, (x &&& Replay.statusFlags).toNat < 8 := fun x =>
    Nat.lt_succ_of_le (UInt8.toNat_and .. ▸ Nat.and_le_right)
  have hfl' : fl &&& Replay.statusFlags = fl := by
    have hkeep := and_not_of_flags (s := ~~~Replay.statusFlags) hfl
    simpa using hkeep
  have hset : ∀ f ∈ statusModes, s &&& Replay.statusFlags &&& f.2 = s &&& f.2 := by
    intro f hf
    have hone : (statusModes.all fun f => Replay.statusFlags &&& f.2 == f.2) = true := by decide
    rw [UInt8.and_assoc, beq_iff_eq.mp (List.all_eq_true.mp hone f hf)]
  have hx := hall ⟨(fl &&& Replay.statusFlags).toNat, hlt fl⟩ ⟨(s &&& Replay.statusFlags).toNat, hlt s⟩
  rw [UInt8.ofNat_toNat, UInt8.ofNat_toNat, hfl', ← and_not_of_flags hfl, List.all_eq_true] at hx
  refine hx.trans (forall₂_congr fun f hf => ?_)
  rw [decide_eq_true_iff, hset f hf]

theorem and_ne_zero_of_ne {fl : UInt8} (hfl : fl &&& ~~~Replay.statusFlags = 0) (hne : fl ≠ 0) :
    ∃ f ∈ statusModes, fl &&& f.2 ≠ 0 := by
  by_contra hnone
  have hzero : fl &&& ~~~(0 : UInt8) = 0 := (and_not_eq_zero hfl).mpr fun f hf hbit =>
    absurd ⟨f, hf, hbit⟩ hnone
  exact hne (UInt8.and_neg_one.symm.trans hzero)

/-- A side that lost its modes gives no status. -/
theorem sjoinStatus_false (fl : UInt8) {f : UInt8 × UInt8} (hf : f ∈ statusModes) :
    sjoinStatus false fl &&& f.2 = 0 := by
  have hall : (statusModes.all fun f => chflDeopped &&& f.2 == 0) = true := by decide
  unfold sjoinStatus
  rw [if_neg Bool.false_ne_true]
  split
  · exact beq_iff_eq.mp (List.all_eq_true.mp hall f hf)
  · exact UInt8.zero_and

section Told

variable {keep : Bool} {f : UInt8 × UInt8} {c : Nat}

theorem toldOf_append (l l' : List (Nat × UInt8)) : toldOf keep (l ++ l') = toldOf keep l ++ toldOf keep l' :=
  List.flatMap_append

theorem toldOf_cons (x : Nat × UInt8) (l : List (Nat × UInt8)) :
    toldOf keep (x :: l) = (letters (sjoinStatus keep x.2)).map (·, x.1) ++ toldOf keep l :=
  List.flatMap_cons

/-- What one entry tells of a user. -/
theorem count_entry (hf : f ∈ statusModes) (d : Nat) (fl : UInt8) :
    ((letters fl).map (·, d)).count (f.1, c) = if d = c ∧ fl &&& f.2 ≠ 0 then 1 else 0 := by
  by_cases hd : d = c
  · subst hd
    rw [List.count_map_of_injective _ _ (Prod.mk_left_injective d), count_letters hf]
    by_cases hz : fl &&& f.2 = 0
    · simp [hz]
    · simp [hz]
  · rw [if_neg fun h => hd h.1, List.count_eq_zero]
    intro hmem
    obtain ⟨x, -, hx⟩ := List.mem_map.mp hmem
    exact hd (Prod.mk.inj hx).2

theorem count_toldOf_cons (hf : f ∈ statusModes) (x : Nat × UInt8) (l : List (Nat × UInt8)) :
    (toldOf keep (x :: l)).count (f.1, c) =
      (if x.1 = c ∧ sjoinStatus keep x.2 &&& f.2 ≠ 0 then 1 else 0) + (toldOf keep l).count (f.1, c) := by
  rw [toldOf_cons, List.count_append, count_entry hf]

/-- A status that is told stands in some entry. -/
theorem mem_toldOf (hf : f ∈ statusModes) (l : List (Nat × UInt8)) :
    (f.1, c) ∈ toldOf keep l ↔ ∃ x ∈ l, x.1 = c ∧ sjoinStatus keep x.2 &&& f.2 ≠ 0 := by
  induction l with
  | nil => simp [toldOf]
  | cons y l ih =>
    rw [← List.count_pos_iff, count_toldOf_cons hf, List.exists_mem_cons_iff, ← ih, ← List.count_pos_iff]
    by_cases hy : y.1 = c ∧ sjoinStatus keep y.2 &&& f.2 ≠ 0
    · rw [if_pos hy]
      exact ⟨fun _ => Or.inl hy, fun _ => by omega⟩
    · rw [if_neg hy, Nat.zero_add]
      exact ⟨Or.inr, fun h => h.resolve_left hy⟩

end Told

-- ============================================================================
-- When the lines are true
-- ============================================================================

/-- Each status that is told is there afterwards, and each that was gained is told once. -/
def Truthful (before after : Channel) (told : List Given) : Prop :=
  (∀ f ∈ statusModes, ∀ c, (f.1, c) ∈ told → flagsOf after c &&& f.2 ≠ 0) ∧
  ∀ f ∈ statusModes, ∀ c, flagsOf after c &&& f.2 ≠ 0 → flagsOf before c &&& f.2 = 0 →
    told.count (f.1, c) = 1

/-- The status of a member is one that it has, and a user that is new to the channel has a
    status on its first mention only. -/
def Fresh (ch : Channel) (l : List (Nat × UInt8)) : Prop :=
  ∀ before c fl after, l = before ++ (c, fl) :: after →
    if ch.isMember c then fl &&& ~~~flagsOf ch c = 0 else c ∈ before.map Prod.fst → fl = 0

section Truth

variable {before after : Channel} {o : TsOutcome} {l : List (Nat × UInt8)}

theorem firstFlags_append_of_not_mem {keep : Bool} {l' : List (Nat × UInt8)} {c : Nat}
    (h : c ∉ l.map Prod.fst) : firstFlags keep (l ++ l') c = firstFlags keep l' c := by
  have hnone : l.find? (·.1 == c) = none := by
    rw [List.find?_eq_none]
    intro x hx heq
    exact h (List.mem_map.mpr ⟨x, hx, beq_iff_eq.mp heq⟩)
  unfold firstFlags
  rw [List.find?_append, hnone, Option.none_or]

theorem firstFlags_head (keep : Bool) (c : Nat) (fl : UInt8) (l : List (Nat × UInt8)) :
    firstFlags keep ((c, fl) :: l) c = sjoinStatus keep fl := by
  simp [firstFlags]

/-- The first mention of a user. -/
theorem exists_first {c : Nat} (h : c ∈ l.map Prod.fst) :
    ∃ pre fl post, l = pre ++ (c, fl) :: post ∧ c ∉ pre.map Prod.fst := by
  induction l with
  | nil => exact absurd h List.not_mem_nil
  | cons x l ih =>
    obtain ⟨d, fl⟩ := x
    by_cases hd : d = c
    · subst hd
      exact ⟨[], fl, l, rfl, List.not_mem_nil⟩
    · have hl : c ∈ l.map Prod.fst := by
        rcases List.mem_cons.mp h with heq | hl
        · exact absurd heq.symm hd
        · exact hl
      obtain ⟨pre, fl', post, rfl, hpre⟩ := ih hl
      refine ⟨(d, fl) :: pre, fl', post, rfl, ?_⟩
      rw [List.map_cons, List.mem_cons, not_or]
      exact ⟨fun heq => hd heq.symm, hpre⟩

/-- A status that is told of a user is in one of its entries. -/
theorem count_eq_zero_of_not_mem {keep : Bool} {f : UInt8 × UInt8} (hf : f ∈ statusModes) {c : Nat}
    (h : c ∉ l.map Prod.fst) : (toldOf keep l).count (f.1, c) = 0 := by
  rw [List.count_eq_zero, mem_toldOf hf]
  rintro ⟨x, hx, rfl, -⟩
  exact h (List.mem_map.mpr ⟨x, hx, rfl⟩)

variable (hafter : ∀ c, flagsOf after c =
  if before.isMember c then flagsOf (settled o before) c else firstFlags o.keepNewModes l c)
include hafter

theorem truthful_of_lost (hkeep : o.keepNewModes = false) :
    Truthful before after (toldOf o.keepNewModes l) := by
  rw [hkeep] at hafter ⊢
  refine ⟨fun f hf c htold => ?_, fun f hf c hgain hbefore => ?_⟩
  · obtain ⟨x, -, -, hx⟩ := (mem_toldOf hf l).mp htold
    exact absurd (sjoinStatus_false x.2 hf) hx
  · rw [hafter] at hgain
    split at hgain
    · exact absurd (flagsOf_settled o hbefore) hgain
    · unfold firstFlags at hgain
      cases hfind : l.find? (·.1 == c) with
      | none =>
        rw [hfind] at hgain
        exact absurd UInt8.zero_and hgain
      | some x =>
        rw [hfind] at hgain
        exact absurd (sjoinStatus_false x.2 hf) hgain

variable (hkeep : o.keepNewModes = true) (hl : ∀ x ∈ l, x.2 &&& ~~~Replay.statusFlags = 0)
include hkeep hl

theorem fresh_of_truthful (h : Truthful before after (toldOf o.keepNewModes l)) :
    Fresh (settled o before) l := by
  rw [hkeep] at hafter h
  obtain ⟨hthere, honce⟩ := h
  intro pre c fl post hsplit
  have hmem : (c, fl) ∈ l := by
    rw [hsplit]
    exact List.mem_append_right _ List.mem_cons_self
  have hstatus : ∀ f ∈ statusModes, fl &&& f.2 ≠ 0 → flagsOf after c &&& f.2 ≠ 0 := fun f hf hbit =>
    hthere f hf c ((mem_toldOf hf l).mpr ⟨(c, fl), hmem, rfl, hbit⟩)
  rw [isMember_settled]
  cases hm : before.isMember c with
  | true =>
    rw [if_pos rfl, and_not_eq_zero (hl _ hmem)]
    have hflags := hafter c
    rw [hm, if_pos rfl] at hflags
    rw [← hflags]
    exact hstatus
  | false =>
    rw [if_neg Bool.false_ne_true]
    -- the status of a second mention would be told twice
    intro hpre
    by_contra hne
    obtain ⟨f, hf, hbit⟩ := and_ne_zero_of_ne (hl _ hmem) hne
    have hafterbit := hstatus f hf hbit
    have hzero : flagsOf before c &&& f.2 = 0 := by
      rw [flagsOf_of_not_member hm, UInt8.zero_and]
    have hcount := honce f hf c hafterbit hzero
    obtain ⟨pre₁, fl₁, pre₂, rfl, hfirst⟩ := exists_first hpre
    have hflags := hafter c
    rw [hm, if_neg Bool.false_ne_true, hsplit, List.append_assoc, List.cons_append,
      firstFlags_append_of_not_mem hfirst, firstFlags_head] at hflags
    rw [hflags] at hafterbit
    have htwice : 2 ≤ (toldOf true l).count (f.1, c) := by
      rw [hsplit, toldOf_append, toldOf_append, List.count_append, List.count_append, count_toldOf_cons hf,
        count_toldOf_cons hf, if_pos ⟨rfl, hafterbit⟩, if_pos ⟨rfl, hbit⟩]
      omega
    omega

theorem truthful_of_fresh (h : Fresh (settled o before) l) :
    Truthful before after (toldOf o.keepNewModes l) := by
  rw [hkeep] at hafter ⊢
  refine ⟨fun f hf c htold => ?_, fun f hf c hgain hbefore => ?_⟩
  · obtain ⟨⟨d, fl⟩, hmem, rfl, hbit⟩ := (mem_toldOf hf l).mp htold
    obtain ⟨pre, post, hsplit⟩ := List.append_of_mem hmem
    have hfresh := h pre d fl post hsplit
    rw [isMember_settled] at hfresh
    rw [hafter]
    cases hm : before.isMember d with
    | true =>
      rw [hm, if_pos rfl, and_not_eq_zero (hl _ hmem)] at hfresh
      rw [if_pos rfl]
      exact hfresh f hf hbit
    | false =>
      rw [hm, if_neg Bool.false_ne_true] at hfresh
      rw [if_neg Bool.false_ne_true]
      by_cases hpre : d ∈ pre.map Prod.fst
      · rw [hfresh hpre] at hbit
        exact absurd UInt8.zero_and hbit
      · rw [hsplit, firstFlags_append_of_not_mem hpre, firstFlags_head]
        exact hbit
  · rw [hafter] at hgain
    cases hm : before.isMember c with
    | true =>
      rw [hm, if_pos rfl] at hgain
      exact absurd (flagsOf_settled o hbefore) hgain
    | false =>
      rw [hm, if_neg Bool.false_ne_true] at hgain
      have hlisted : c ∈ l.map Prod.fst := by
        by_contra hnot
        have hnil := @firstFlags_append_of_not_mem l true [] c hnot
        rw [List.append_nil] at hnil
        rw [hnil] at hgain
        exact absurd UInt8.zero_and hgain
      obtain ⟨pre, fl, post, hsplit, hpre⟩ := exists_first hlisted
      rw [hsplit, firstFlags_append_of_not_mem hpre, firstFlags_head] at hgain
      have hrest : (toldOf true post).count (f.1, c) = 0 := by
        rw [List.count_eq_zero, mem_toldOf hf]
        rintro ⟨⟨d, fl'⟩, hx, rfl, hbit⟩
        obtain ⟨mid, last, rfl⟩ := List.append_of_mem hx
        have hfresh := h (pre ++ (d, fl) :: mid) d fl' last (by rw [hsplit]; simp)
        rw [isMember_settled, hm, if_neg Bool.false_ne_true] at hfresh
        rw [hfresh (by simp)] at hbit
        exact absurd UInt8.zero_and hbit
      rw [hsplit, toldOf_append, List.count_append, count_toldOf_cons hf, if_pos ⟨rfl, hgain⟩, hrest,
        count_eq_zero_of_not_mem hf hpre]

end Truth

theorem msSjoin_chan {srv : Server} {m : Sjoin} {now : Int} {mode : Mode} {users : Bytes} {t : Table}
    {p : Nat} {isnew : Bool} (hparse : sjoinParse m = some (mode, users))
    (hget : getOrCreateChannel srv.table m.name now = (t, some (p, isnew))) :
    (msSjoin srv m now).table.chan p =
      (sjoinChannel srv m isnew (atol m.ts) mode users (t.chan p)).1 := by
  unfold msSjoin
  simp only [hparse, hget]
  split
  · exact Table.chan_setChan ..
  · exact Table.chan_setChan ..

/-- For every channel and every `SJOIN`: what the lines tell is true exactly when the list
    gives members no status that they do not have, and new users none after their first
    mention, or when the modes of the list are not kept. -/
theorem msSjoinLines_truthful_iff {srv : Server} {m : Sjoin} {now : Int} {mode : Mode} {users : Bytes}
    {t : Table} {p : Nat} {isnew : Bool} (hparse : sjoinParse m = some (mode, users))
    (hget : getOrCreateChannel srv.table m.name now = (t, some (p, isnew))) :
    Truthful (t.chan p) ((msSjoin srv m now).table.chan p) (msSjoinLines srv m now).flatten ↔
      ((tsCompare isnew (t.chan p).channelts (atol m.ts)).keepNewModes = true →
        Fresh (settled (tsCompare isnew (t.chan p).channelts (atol m.ts)) (t.chan p))
          (listed srv m.link (sjoinUsers [] users))) := by
  have hafter := @sjoinChannel_flags srv m isnew (atol m.ts) mode users (t.chan p)
  rw [← msSjoin_chan hparse hget] at hafter
  have hlines : (msSjoinLines srv m now).flatten =
      toldOf (tsCompare isnew (t.chan p).channelts (atol m.ts)).keepNewModes
        (listed srv m.link (sjoinUsers [] users)) := by
    unfold msSjoinLines
    simp only [hparse, hget]
    exact announceUsers_flatten ..
  rw [hlines]
  by_cases hkeep : (tsCompare isnew (t.chan p).channelts (atol m.ts)).keepNewModes = true
  · exact ⟨fun h _ => fresh_of_truthful hafter hkeep listed_status h,
      fun h => truthful_of_fresh hafter hkeep listed_status (h hkeep)⟩
  · exact ⟨fun _ h => absurd h hkeep, fun _ => truthful_of_lost hafter (by simpa using hkeep)⟩

-- ============================================================================
-- The text of a line
-- ============================================================================

theorem readLetters_status (name : Nat → Bytes) (rest : List Bytes) (l : List Given)
    (hl : ∀ x ∈ l, x.1 ∈ statusModes.map Prod.fst) :
    readLetters .add (l.map (·.1)) (l.map (fun x => name x.2) ++ rest) =
      l.map fun x => ⟨x.1, .add, name x.2⟩ := by
  induction l with
  | nil => rfl
  | cons x l ih =>
    have hletter : ((statusModes.map Prod.fst).all fun y =>
        decide (y ≠ 43 ∧ y ≠ 45 ∧ FinalMode.takesArg .add y = true)) = true := by decide
    obtain ⟨hplus, hminus, htakes⟩ :=
      of_decide_eq_true (List.all_eq_true.mp hletter x.1 (hl x List.mem_cons_self))
    rw [List.map_cons, List.map_cons, List.map_cons, readLetters, if_neg hplus, if_neg hminus, if_pos htakes,
      ← ih fun y hy => hl y (List.mem_cons_of_mem _ hy)]
    rfl

/-- The parameters of a line, with empty ones where there are fewer than four. -/
theorem statusArgs_eq (name : Nat → Bytes) {l : List Given} (hl : l.length ≤ maxModeParams) :
    ((List.range maxModeParams).map fun i => (l[i]?).elim [] fun x => name x.2) =
      l.map (fun x => name x.2) ++ List.replicate (maxModeParams - l.length) [] := by
  refine List.ext_getElem (by simp; omega) fun i hi _ => ?_
  rw [List.getElem_map, List.getElem_range]
  by_cases hlt : i < l.length
  · rw [List.getElem_append_left (by simpa using hlt), List.getElem?_eq_getElem hlt, List.getElem_map]
    rfl
  · rw [List.getElem_append_right (by simpa using hlt), List.getElem?_eq_none (by omega),
      List.getElem_replicate]
    rfl

theorem letter_of_mem_toldOf {keep : Bool} {l : List (Nat × UInt8)} {x : Given} (h : x ∈ toldOf keep l) :
    x.1 ∈ statusModes.map Prod.fst := by
  obtain ⟨y, -, hx⟩ := List.mem_flatMap.mp h
  obtain ⟨letter, hletter, rfl⟩ := List.mem_map.mp hx
  obtain ⟨f, hf, rfl⟩ := List.mem_map.mp hletter
  exact List.mem_map.mpr ⟨f, List.mem_of_mem_filter hf, rfl⟩

/-- A client reads in the text of a line what it was made of. -/
theorem readLine_statusLine {srv : Server} {link : Nat} {keep : Bool} {users : List Bytes}
    {name : Nat → Bytes} (hname : ∀ c, (32 : UInt8) ∉ name c) (source chname : Bytes) :
    ∀ l ∈ announceUsers srv link keep users,
      readLine (lineStart source chname) (statusLine source chname name l) =
        l.map fun x => ⟨x.1, .add, name x.2⟩ := by
  intro l hl
  have hletters : ∀ x ∈ l, x.1 ∈ statusModes.map Prod.fst := fun x hx => by
    refine @letter_of_mem_toldOf keep (listed srv link users) x ?_
    rw [← announceUsers_flatten]
    exact List.mem_flatten.mpr ⟨l, hl, hx⟩
  have hspace : (32 : UInt8) ∉ 43 :: l.map (·.1) := by
    intro hmem
    rcases List.mem_cons.mp hmem with hmem | hmem
    · exact absurd hmem (by decide)
    · obtain ⟨x, hx, heq⟩ := List.mem_map.mp hmem
      exact absurd (hletters x hx) (by rw [heq]; decide)
  have hargs := statusArgs_eq name (announceUsers_length srv link keep users l hl)
  have hwords : ∀ w ∈ (List.range maxModeParams).map fun i => (l[i]?).elim [] fun x => name x.2,
      (32 : UInt8) ∉ w := by
    rw [hargs]
    intro w hw
    rcases List.mem_append.mp hw with hw | hw
    · obtain ⟨x, -, rfl⟩ := List.mem_map.mp hw
      exact hname x.2
    · rw [(List.mem_replicate.mp hw).2]
      exact List.not_mem_nil
  unfold readLine statusLine
  rw [List.drop_left, FinalMode.splitOn_words _ _ hspace hwords, hargs]
  show readLetters .add (43 :: l.map (·.1)) _ = _
  rw [readLetters, if_pos rfl]
  exact readLetters_status name _ l hletters

-- ============================================================================
-- Two lists
-- ============================================================================

/-- `bob` is in `#a` without a status. -/
def plainBob : Sjoin := ⟨1, [49, 65, 65], [50, 48], [35, 97], [43], [[98, 111, 98]]⟩

/-- The server on which he is. -/
def memberServer : Server := msSjoin bobServer plainBob 20

theorem memberServer_reach : Reach (Server.step plainConfig) anyStep Server.start memberServer :=
  bobServer_reach.next (a := .sjoin plainBob 20) trivial rfl

/-- The first `SJOIN` with `@bob` makes him a channel operator. -/
theorem msSjoinLines_truthful_new :
    msSjoinLines bobServer (bobSjoin [50, 48] [35, 97] [43]) 20 = [[(111, 0)]] ∧
      Truthful (allocateChannel [35, 97] 20)
        ((msSjoin bobServer (bobSjoin [50, 48] [35, 97] [43]) 20).table.chan 0)
        (msSjoinLines bobServer (bobSjoin [50, 48] [35, 97] [43]) 20).flatten := by
  have hparse : sjoinParse (bobSjoin [50, 48] [35, 97] [43]) = some (Mode.none, [64, 98, 111, 98]) := by
    decide
  have hlisted : listed bobServer 1 (sjoinUsers [] [64, 98, 111, 98]) = [(0, chflChanop)] := by decide
  refine ⟨by decide, ?_⟩
  refine (@msSjoinLines_truthful_iff bobServer _ 20 _ _ (Table.start.add [35, 97] 20) 0 true hparse rfl).mpr ?_
  intro _
  show Fresh _ (listed bobServer 1 (sjoinUsers [] [64, 98, 111, 98]))
  rw [hlisted]
  intro before c fl after hsplit
  cases before with
  | nil =>
    obtain ⟨heq, -⟩ := List.cons.inj hsplit
    obtain ⟨rfl, rfl⟩ := Prod.mk.inj heq
    rw [if_neg (by decide)]
    exact fun hmem => absurd hmem List.not_mem_nil
  | cons x before =>
    have hnil := (List.cons.inj hsplit).2
    exact absurd (congrArg List.length hnil) (by simp)

/-- Once he is a member, the same `SJOIN` tells the others that he is one, and he is not. -/
theorem not_msSjoinLines_truthful :
    ¬ ∀ (srv : Server) (m : Sjoin) (now : Int) (mode : Mode) (users : Bytes) (t : Table) (p : Nat)
      (isnew : Bool), Reach (Server.step plainConfig) anyStep Server.start srv → m.wellFormed = true →
      sjoinParse m = some (mode, users) → getOrCreateChannel srv.table m.name now = (t, some (p, isnew)) →
      Truthful (t.chan p) ((msSjoin srv m now).table.chan p) (msSjoinLines srv m now).flatten := by
  intro h
  have hparse : sjoinParse (bobSjoin [50, 48] [35, 97] [43]) = some (Mode.none, [64, 98, 111, 98]) := by
    decide
  have hget : getOrCreateChannel memberServer.table [35, 97] 30 = (memberServer.table, some (0, false)) :=
    getOrCreateChannel_found (by decide)
      (by decide : memberServer.table.lookup (lookupName [35, 97]) = some 0) 30
  obtain ⟨hthere, -⟩ := h memberServer (bobSjoin [50, 48] [35, 97] [43]) 30 _ _ _ 0 false
    memberServer_reach (by decide) hparse hget
  have hop := hthere (111, chflChanop) (by decide) 0 (by decide)
  revert hop
  decide

end Bluebox.Announce
