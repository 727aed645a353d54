/-
  Bluebox.Channel.BurstLists

  The burst of a channel: `burst_TS6` and `burst_modes_TS6` (`modules/core/m_server.c`) pack
  the members into lines of `SJOIN` and the entries of the lists into lines of `BMASK`;
  `ms_sjoin` and `ms_bmask` of the other server read them.

  Nothing is lost where a line ends.  A channel that is not global is passed over, and a mask
  that was cut can come back as another one in upper case: the other server keeps one of the two.
-/
import Bluebox.Channel.ChCaps
import Bluebox.Channel.LostTs
import Bluebox.Channel.MaskWord

namespace Bluebox.BurstLists

open Bluebox.Lib Bluebox.Chan
open Bluebox.Bandb (Word)
open Bluebox.ChCaps (capEx capIe)
open Bluebox.FinalMode (blank_dropLast splitOn_words)
open Bluebox.Forward (Link Me sjoinHeader statusText useId)
open Bluebox.ModeBuf (IsLong fmtInt_length_le)
open Bluebox.Announce (finished settled sjoinChannel_eq)
open Bluebox.LostTs (sjoinUsers_list)
open Bluebox.Replay (statusFlags)

-- ============================================================================
-- The lines of a burst
-- ============================================================================

/-- A line, with its words: users, or masks for one of the lists. -/
inductive BurstLine
  | sjoin (users : List Bytes)
  | bmask (k : BanType) (masks : List Bytes)
deriving DecidableEq, Repr

/-- The letter of a list. -/
def banFlag : BanType → UInt8
  | .ban => 98
  | .exception => 101
  | .invex => 73

/-- `:%s BMASK %ld %s %c :`. -/
def bmaskHeader (source : Bytes) (ts : Int) (chname : Bytes) (flag : UInt8) : Bytes :=
  58 :: source ++ [32, 66, 77, 65, 83, 75, 32] ++ fmtInt ts ++ 32 :: chname ++ [32, flag, 32, 58]

/-- What stands in front of the users. -/
def burstHeader (me : Me) (ch : Channel) : Bytes :=
  sjoinHeader me.id ch.channelts ch.chname (channelModes ch.mode true)

/-- `use_id` of a member. -/
def memberId (srv : Server) (m : Membership) : Bytes := (srv.client m.clientP).elim [] useId

/-- `find_channel_status` with the id. -/
def memberText (srv : Server) (m : Membership) : Bytes := statusText true m.flags ++ memberId srv m

/-- `tlen` of a member. -/
def memberTlen (srv : Server) (m : Membership) : Nat :=
  (memberId srv m).length + 1 + (if m.isChanop then 1 else 0) + (if m.isHalfop then 1 else 0) +
    if m.isVoiced then 1 else 0

/-- No room for a member. -/
def memberFull (srv : Server) (mlen used : Nat) (m : Membership) : Bool :=
  mlen + used + memberTlen srv m ≥ bufSize - 4

/-- The loop of `burst_modes_TS6`: a mask that does not fit on a line of its own is left out. -/
def packMasks (mlen : Nat) (line : List Bytes) (curLen : Nat) : List Bytes → List (List Bytes)
  | [] => [line]
  | mask :: masks =>
    let tlen := mask.length + 1
    if curLen + tlen > bufSize - 3 then
      if curLen = mlen then packMasks mlen line curLen masks
      else line :: packMasks mlen [mask] (mlen + tlen) masks
    else packMasks mlen (line ++ [mask]) (curLen + tlen) masks

/-- `burst_modes_TS6`, for a list that is not empty. -/
def burstModesTs6 (me : Me) (ch : Channel) (k : BanType) : List BurstLine :=
  let mlen := (bmaskHeader me.id ch.channelts ch.chname (banFlag k)).length
  if ch.list k = [] then []
  else (packMasks mlen [] mlen ((ch.list k).map Ban.banstr)).map (.bmask k)

/-- What `burst_TS6` sends to a server for one channel, up to the lists. -/
def burstTs6 (me : Me) (x : Link) (srv : Server) (ch : Channel) : List BurstLine :=
  if ch.members = [] then []
  else if ch.chname.head? ≠ some 35 then []
  else
    (packFrom (memberFull srv (burstHeader me ch).length) (memberTlen srv) [] 0 ch.members).map
        (fun l => .sjoin (l.map (memberText srv))) ++
      burstModesTs6 me ch .ban ++
      (if x.isCapable capEx then burstModesTs6 me ch .exception else []) ++
      if x.isCapable capIe then burstModesTs6 me ch .invex else []

/-- Words with a space behind each: the last space makes way for the end. -/
def spaced (words : List Bytes) : Bytes := (words.flatMap (· ++ [32])).dropLast

/-- The text of a line. -/
def BurstLine.text (me : Me) (ch : Channel) : BurstLine → Bytes
  | .sjoin users => (burstHeader me ch ++ users.flatMap (· ++ [32])).dropLast
  | .bmask k masks =>
    (bmaskHeader me.id ch.channelts ch.chname (banFlag k) ++ masks.flatMap (· ++ [32])).dropLast

/-- What the line is to a server where it arrives over `link`, from the server at `c`. -/
def BurstLine.action (me : Me) (ch : Channel) (link c : Nat) (now : Int) : BurstLine → Action
  | .sjoin users => .sjoin (burstSjoin ch link me.id (spaced users)) now
  | .bmask k masks => .bmask c (fmtInt ch.channelts) ch.chname [banFlag k] (spaced masks) now

/-- Process lines, each at some time; none when one of them crashes the server. -/
def process (cfg : Config) (me : Me) (ch : Channel) (link c : Nat) (srv : Server)
    (lines : List (BurstLine × Int)) : Option Server :=
  lines.foldlM (fun srv x => srv.step cfg (x.1.action me ch link c x.2)) srv

-- ============================================================================
-- Words
-- ============================================================================

theorem spaced_cons (w : Bytes) (ws : List Bytes) : spaced (w :: ws) = w ++ ws.flatMap (32 :: ·) := by
  unfold spaced
  rw [List.flatMap_cons, ← blank_dropLast]
  by_cases hnil : ws.flatMap (· ++ [32]) = []
  · rw [if_pos hnil, hnil, List.append_nil, List.append_nil, List.dropLast_concat]
  · rw [if_neg hnil, List.dropLast_append_of_ne_nil hnil, List.append_assoc]
    rfl

theorem length_flatMap_blank (ws : List Bytes) :
    (ws.flatMap (· ++ [(32 : UInt8)])).length = (ws.map fun w => w.length + 1).sum := by
  induction ws with
  | nil => rfl
  | cons w ws ih =>
    rw [List.flatMap_cons, List.length_append, List.length_append, ih, List.map_cons, List.sum_cons]
    rfl

theorem sjoinUsers_word (w : Bytes) (hw : (32 : UInt8) ∉ w) : ∀ acc rest : Bytes,
    sjoinUsers acc (w ++ rest) = sjoinUsers (acc ++ w) rest := by
  induction w with
  | nil =>
    intro acc rest
    rw [List.append_nil]
    rfl
  | cons b w ih =>
    intro acc rest
    rw [List.mem_cons, not_or] at hw
    rw [List.cons_append, sjoinUsers, if_neg (Ne.symm hw.1), ih hw.2, List.append_assoc]
    rfl

/-- The words are the users that `ms_sjoin` finds. -/
theorem sjoinUsers_spaced (ws : List Bytes) (hws : ∀ w ∈ ws, w ≠ [] ∧ (32 : UInt8) ∉ w) (hne : ws ≠ []) :
    sjoinUsers [] (spaced ws) = ws := by
  have hall : ∀ (ws : List Bytes) (acc : Bytes), (∀ w ∈ ws, w ≠ [] ∧ (32 : UInt8) ∉ w) →
      sjoinUsers acc (ws.flatMap (32 :: ·)) = acc :: ws := by
    intro ws
    induction ws with
    | nil => exact fun _ _ => rfl
    | cons w ws ih =>
      intro acc hws
      obtain ⟨hnil, hblank⟩ := hws w List.mem_cons_self
      rw [List.flatMap_cons, List.cons_append, sjoinUsers, if_pos rfl,
        if_neg (List.append_ne_nil_of_left_ne_nil hnil _), sjoinUsers_word w hblank, List.nil_append,
        ih w fun x hx => hws x (List.mem_cons_of_mem _ hx)]
  obtain ⟨w, ws, rfl⟩ := List.exists_cons_of_ne_nil hne
  rw [spaced_cons, sjoinUsers_word w (hws w List.mem_cons_self).2, List.nil_append,
    hall ws w fun x hx => hws x (List.mem_cons_of_mem _ hx)]

/-- The words are the masks that `ms_bmask` finds. -/
theorem bmaskMasks_spaced {ws : List Bytes} (hws : ∀ w ∈ ws, Word w ∧ w.length ≤ modeBufLen) (hne : ws ≠ []) :
    bmaskMasks (spaced ws) = ws := by
  have hblank : ∀ w ∈ ws, (32 : UInt8) ∉ w := fun w hw hmem => (hws w hw).1.no_blank 32 hmem rfl
  have hsplit : (spaced ws).splitOn 32 = ws := by
    obtain ⟨w, ws, rfl⟩ := List.exists_cons_of_ne_nil hne
    rw [spaced_cons, splitOn_words ws w (hblank w List.mem_cons_self) fun x hx =>
      hblank x (List.mem_cons_of_mem _ hx)]
  unfold bmaskMasks
  rw [hsplit, List.filter_eq_self.mpr fun w hw => decide_eq_true (hws w hw).1.ne_nil,
    List.takeWhile_eq_self_iff.mpr fun w hw => ?_, List.filter_eq_self.mpr fun w hw => ?_]
  · exact decide_eq_true (hws w hw).1.no_colon
  · rw [Bool.or_eq_true]
    exact Or.inr (decide_eq_true (hws w hw).2)

-- ============================================================================
-- The lengths of the lines
-- ============================================================================

section Lengths

variable {me : Me} {srv : Server} {ch : Channel}

theorem channelModes_length_le {m : Mode} (hv : m.Valid) : (channelModes m true).length ≤ 60 := by
  have hletters : (simpleLetters m.mode).length ≤ 10 := by
    unfold simpleLetters
    rw [List.length_cons, List.length_map]
    exact Nat.succ_le_succ (List.length_filter_le _ modeLetters)
  have hlimit : (fmtInt m.limit).length ≤ 20 := fmtInt_length_le (by
    have := hv.limit
    unfold IsInt32 at this
    unfold IsLong
    omega)
  have hkey : m.key.length < 24 := hv.length_lt
  unfold channelModes
  rw [List.length_append]
  by_cases hboth : m.limit ≠ 0 ∧ m.key ≠ []
  · simp only [if_pos hboth, if_true, List.length_append, List.length_cons, List.length_nil]
    omega
  · rw [if_neg hboth]
    split
    · simp only [if_true, List.length_append, List.length_cons, List.length_nil]
      omega
    · split
      · simp only [if_true, List.length_append, List.length_cons, List.length_nil]
        omega
      · rw [List.length_nil]
        omega

/-- What the lines of a burst are made of is as short as the server keeps it. -/
structure Sized (me : Me) (ch : Channel) : Prop where
  id : me.id.length < idLen
  ts : IsLong ch.channelts
  chname : ch.chname.length < channelLen
  mode : ch.mode.Valid
  bans : ∀ k, ∀ b ∈ ch.list k, b.banstr.length < banLen

theorem Sized.burstHeader_length_le (h : Sized me ch) : (burstHeader me ch).length ≤ 300 := by
  have hid : me.id.length < 10 := h.id
  have hts := fmtInt_length_le h.ts
  have hname : ch.chname.length < 200 := h.chname
  have hmodes := channelModes_length_le h.mode
  simp only [burstHeader, sjoinHeader, Forward.sjoinStart, List.length_append, List.length_cons,
    List.length_nil]
  omega

theorem Sized.bmaskHeader_length_le (h : Sized me ch) (flag : UInt8) :
    (bmaskHeader me.id ch.channelts ch.chname flag).length ≤ 300 := by
  have hid : me.id.length < 10 := h.id
  have hts := fmtInt_length_le h.ts
  have hname : ch.chname.length < 200 := h.chname
  simp only [bmaskHeader, List.length_append, List.length_cons, List.length_nil]
  omega

/-- `tlen` is what the text of a member and a space take. -/
theorem memberTlen_eq (m : Membership) : memberTlen srv m = (memberText srv m).length + 1 := by
  unfold memberTlen memberText statusText Membership.isChanop Membership.isHalfop Membership.isVoiced
  simp only [bne_iff_ne, if_true, List.length_append]
  have hone : ∀ (P : Prop) [Decidable P] (b : UInt8), (if P then [b] else []).length = if P then 1 else 0 := by
    intro P _ b
    split <;> rfl
  rw [hone, hone, hone]
  omega

/-- The lines of the members: none is empty or too long. -/
theorem memberLines_fit (h : Sized me ch) (hne : ch.members ≠ [])
    (hids : ∀ m ∈ ch.members, (memberId srv m).length ≤ nickLen) :
    ∀ l ∈ packFrom (memberFull srv (burstHeader me ch).length) (memberTlen srv) [] 0 ch.members,
      l ≠ [] ∧ (BurstLine.text me ch (.sjoin (l.map (memberText srv)))).length ≤ 510 := by
  have hhdr := h.burstHeader_length_le
  intro l hl
  have hone : ∀ m ∈ ch.members, memberTlen srv m < bufSize - 4 - (burstHeader me ch).length := by
    intro m hm
    have hid : (memberId srv m).length ≤ 30 := hids m hm
    have hflag : ∀ b : Bool, (if b = true then 1 else 0 : Nat) ≤ 1 := by decide
    have := hflag m.isChanop
    have := hflag m.isHalfop
    have := hflag m.isVoiced
    unfold memberTlen bufSize
    omega
  obtain ⟨hnil, hsum⟩ := packFrom_fits hne hone (fun used m => by
    unfold memberFull bufSize
    rw [decide_eq_false_iff_not]
    omega) l hl
  have hwidth : (l.map (memberTlen srv)).sum = ((l.map (memberText srv)).map fun w => w.length + 1).sum := by
    rw [List.map_map]
    exact congrArg List.sum (List.map_congr_left fun m _ => memberTlen_eq m)
  refine ⟨hnil, ?_⟩
  unfold bufSize at hsum
  rw [BurstLine.text, List.length_dropLast, List.length_append, length_flatMap_blank, ← hwidth]
  omega

/-- No room for a mask. -/
def maskFull (mlen used : Nat) (mask : Bytes) : Bool := mlen + used + (mask.length + 1) > bufSize - 3

/-- Where every mask fits, none is left out. -/
theorem packMasks_eq {mlen : Nat} (masks : List Bytes) (hfit : ∀ w ∈ masks, mlen + (w.length + 1) ≤ bufSize - 3) :
    ∀ line used, packMasks mlen line (mlen + used) masks =
      packFrom (maskFull mlen) (fun w => w.length + 1) line used masks := by
  induction masks with
  | nil => exact fun _ _ => rfl
  | cons w masks ih =>
    intro line used
    have hw := hfit w List.mem_cons_self
    have ih' := ih fun x hx => hfit x (List.mem_cons_of_mem _ hx)
    rw [packMasks, packFrom]
    by_cases hfull : mlen + used + (w.length + 1) > bufSize - 3
    · have hused : ¬ mlen + used = mlen := by omega
      have hshut : maskFull mlen used w = true := decide_eq_true hfull
      rw [if_pos hfull, if_neg hused, if_pos hshut, ih']
    · have hopen : ¬ maskFull mlen used w = true := fun h => hfull (of_decide_eq_true h)
      rw [if_neg hfull, if_neg hopen, Nat.add_assoc, ih']

/-- The lines of a list: none is empty or too long, and no entry is lost. -/
theorem burstModesTs6_fit (h : Sized me ch) {k : BanType} :
    ∃ ls : List (List Bytes), burstModesTs6 me ch k = ls.map (.bmask k) ∧
      ls.flatten = (ch.list k).map Ban.banstr ∧
      ∀ l ∈ ls, l ≠ [] ∧ (BurstLine.text me ch (.bmask k l)).length ≤ 510 := by
  have hhdr := h.bmaskHeader_length_le (banFlag k)
  unfold burstModesTs6
  dsimp only
  by_cases hnil : ch.list k = []
  · rw [if_pos hnil, hnil]
    exact ⟨[], rfl, rfl, fun l hl => absurd hl List.not_mem_nil⟩
  · have hshort : ∀ w ∈ (ch.list k).map Ban.banstr, w.length < 109 := by
      intro w hw
      obtain ⟨b, hb, rfl⟩ := List.mem_map.mp hw
      exact h.bans k b hb
    rw [if_neg hnil]
    generalize hmlen : (bmaskHeader me.id ch.channelts ch.chname (banFlag k)).length = mlen at hhdr ⊢
    have hne : (ch.list k).map Ban.banstr ≠ [] := fun heq => hnil (List.map_eq_nil_iff.mp heq)
    have heq : packMasks mlen [] mlen ((ch.list k).map Ban.banstr) =
        packFrom (maskFull mlen) (fun w => w.length + 1) [] 0 ((ch.list k).map Ban.banstr) :=
      packMasks_eq _ (fun w hw => by have := hshort w hw; unfold bufSize; omega) [] 0
    refine ⟨_, rfl, by rw [heq, flatten_packFrom, List.nil_append], fun l hl => ?_⟩
    rw [heq] at hl
    obtain ⟨hl, hsum⟩ := @packFrom_fits _ (maskFull mlen) (fun w => w.length + 1) (bufSize - 2 - mlen) _ hne
      (fun w hw => by have := hshort w hw; unfold bufSize; omega)
      (fun used w => by
        unfold maskFull bufSize
        rw [decide_eq_false_iff_not]
        omega) l hl
    refine ⟨hl, ?_⟩
    unfold bufSize at hsum
    rw [BurstLine.text, List.length_dropLast, List.length_append, length_flatMap_blank, hmlen]
    omega

end Lengths

-- ============================================================================
-- Users
-- ============================================================================

/-- An id or a nick. -/
structure Uid (s : Bytes) : Prop where
  ne_nil : s ≠ []
  chars : s.all isNickChar = true
  length : s.length ≤ nickLen

/-- What a membership is on the other server. -/
def mark (peer : Nat → Nat) (m : Membership) : Nat × UInt8 := (peer m.clientP, m.flags &&& statusFlags)

/-- The other server knows the members: under their ids it finds clients of its own, each
    for one member, behind the link. -/
structure Knows (srv srv' : Server) (link : Nat) (peer : Nat → Nat) (ch : Channel) : Prop where
  uid : ∀ m ∈ ch.members, Uid (memberId srv m)
  found : ∀ m ∈ ch.members, ∃ cl, findClient srv' (memberId srv m) = some (peer m.clientP, cl) ∧
    cl.link = link ∧ cl.isClient = true
  distinct : ∀ m ∈ ch.members, ∀ n ∈ ch.members, peer m.clientP = peer n.clientP → m.clientP = n.clientP

section Users

variable {srv srv' : Server} {link : Nat} {peer : Nat → Nat} {ch : Channel}

theorem Uid.byte {s : Bytes} (h : Uid s) {b : UInt8} (hb : b ∈ s) :
    b ≠ 64 ∧ b ≠ 37 ∧ b ≠ 43 ∧ b ≠ 32 ∧ b ≠ 0 := by
  have hnick : isNickChar b = true := List.all_eq_true.mp h.chars b hb
  refine ⟨?_, ?_, ?_, ?_, ?_⟩
  all_goals
    rintro rfl
    exact absurd hnick (by decide)

/-- The prefixes of a member are read as its statuses. -/
theorem statusPrefix_statusText (fl : UInt8) {s : Bytes} (hs : Uid s) :
    statusPrefix 3 0 (statusText true fl ++ s) = (fl &&& statusFlags, s) := by
  have hbits : ∀ x : Fin 256, (if UInt8.ofFin x &&& chflChanop ≠ 0 then chflChanop else 0) |||
      (if UInt8.ofFin x &&& chflHalfop ≠ 0 then chflHalfop else 0) |||
      (if UInt8.ofFin x &&& chflVoice ≠ 0 then chflVoice else 0) = UInt8.ofFin x &&& statusFlags := by
    decide +kernel
  have hfl : (if fl &&& chflChanop ≠ 0 then chflChanop else 0) |||
      (if fl &&& chflHalfop ≠ 0 then chflHalfop else 0) |||
      (if fl &&& chflVoice ≠ 0 then chflVoice else 0) = fl &&& statusFlags := hbits fl.toFin
  obtain ⟨b, r, rfl⟩ := List.exists_cons_of_ne_nil hs.ne_nil
  obtain ⟨h64, h37, h43, -, -⟩ := hs.byte List.mem_cons_self
  rw [← hfl]
  unfold statusText
  by_cases hop : fl &&& chflChanop ≠ 0 <;> by_cases hhalf : fl &&& chflHalfop ≠ 0 <;>
    by_cases hvoice : fl &&& chflVoice ≠ 0 <;>
    simp [hop, hhalf, hvoice, statusPrefix, h64, h37, h43]

theorem sjoinTarget_member (hk : Knows srv srv' link peer ch) {m : Membership} (hm : m ∈ ch.members) :
    sjoinTarget srv' link (memberText srv m) = some (mark peer m) := by
  obtain ⟨cl, hfind, hlink, hclient⟩ := hk.found m hm
  unfold sjoinTarget memberText
  rw [statusPrefix_statusText m.flags (hk.uid m hm)]
  simp only [hfind, if_pos (And.intro hlink hclient)]
  rfl

theorem memberText_word (hk : Knows srv srv' link peer ch) {m : Membership} (hm : m ∈ ch.members) :
    memberText srv m ≠ [] ∧ (32 : UInt8) ∉ memberText srv m ∧ NoNul (memberText srv m) := by
  have hid := hk.uid m hm
  have hmarks : ∀ b ∈ statusText true m.flags, b = 64 ∨ b = 37 ∨ b = 43 := by
    intro b hb
    unfold statusText at hb
    rw [if_pos rfl, List.mem_append, List.mem_append] at hb
    rcases hb with (hb | hb) | hb
    · split at hb
      · exact Or.inl (List.mem_singleton.mp hb)
      · exact absurd hb List.not_mem_nil
    · split at hb
      · exact Or.inr (Or.inl (List.mem_singleton.mp hb))
      · exact absurd hb List.not_mem_nil
    · split at hb
      · exact Or.inr (Or.inr (List.mem_singleton.mp hb))
      · exact absurd hb List.not_mem_nil
  refine ⟨List.append_ne_nil_of_right_ne_nil _ hid.ne_nil, fun h => ?_, fun h => ?_⟩
  · rcases List.mem_append.mp h with h | h
    · exact absurd (hmarks 32 h) (by decide)
    · exact (hid.byte h).2.2.2.1 rfl
  · rcases List.mem_append.mp h with h | h
    · exact absurd (hmarks 0 h) (by decide)
    · exact (hid.byte h).2.2.2.2 rfl

/-- The members and their flags. -/
def entered (ch : Channel) : List (Nat × UInt8) := ch.members.map fun m => (m.clientP, m.flags)

/-- Users that were not there enter, one after the other. -/
theorem foldl_sjoinUser_entered (xs : List (Nat × UInt8)) : ∀ (users : List Bytes) (st : Channel × Nat),
    users.map (sjoinTarget srv' link) = xs.map some → ((xs ++ entered st.1).map Prod.fst).Nodup →
    entered (users.foldl (sjoinUser srv' link true) st).1 = xs.reverse ++ entered st.1 := by
  induction xs with
  | nil =>
    intro users st husers _
    rw [List.map_eq_nil_iff.mp husers]
    rfl
  | cons x xs ih =>
    intro users st husers hnodup
    obtain ⟨c, fl⟩ := x
    obtain ⟨u, users, rfl⟩ : ∃ u rest, users = u :: rest := by
      cases users with
      | nil => cases husers
      | cons u rest => exact ⟨u, rest, rfl⟩
    obtain ⟨htarget, hrest⟩ := List.cons.inj husers
    rw [List.cons_append, List.map_cons, List.nodup_cons] at hnodup
    have hnew : st.1.isMember c = false := by
      unfold Channel.isMember Channel.findMembership
      rw [Option.isSome_eq_false_iff, Option.isNone_iff_eq_none, List.find?_eq_none]
      intro m hm heq
      refine hnodup.1 ?_
      rw [List.map_append, List.mem_append]
      refine Or.inr (List.mem_map.mpr ⟨_, List.mem_map_of_mem hm, ?_⟩)
      exact beq_iff_eq.mp heq
    have hstep : sjoinUser srv' link true st u = (addUserToChannel st.1 c fl, st.2 + 1) := by
      unfold sjoinUser
      simp only [htarget, hnew, Bool.false_eq_true, if_false]
      rfl
    have henter : entered (addUserToChannel st.1 c fl) = (c, fl) :: entered st.1 := rfl
    rw [List.foldl_cons, hstep, ih users _ hrest, henter, List.reverse_cons, List.append_assoc]
    · rfl
    · rw [henter, List.map_append, List.map_cons]
      rw [List.map_append] at hnodup
      exact List.nodup_middle.mpr (List.nodup_cons.mpr hnodup)

end Users

-- ============================================================================
-- One SJOIN
-- ============================================================================

/-- A channel of a run that its burst can carry: a global one. -/
structure Burstable (me : Me) (ch : Channel) : Prop extends Sized me ch where
  check : checkChannelName ch.chname = true
  hash : ch.chname.head? = some 35
  words : ∀ k, ∀ b ∈ ch.list k, Word b.banstr
  noNul : ∀ k, ∀ b ∈ ch.list k, NoNul b.banstr
  nodup : (ch.members.map Membership.clientP).Nodup

/-- How far the other server is: the users that came, and the masks for each list. -/
structure Carried (srv' srv : Server) (ch : Channel) (p : Nat) (seen : List (Nat × UInt8))
    (masks : BanType → List Bytes) : Prop where
  holds : ∃ mode, Holds srv ch.chname (ch.channelts, mode) p
  clients : srv.clients = srv'.clients
  entered : entered (srv.table.chan p) = seen
  kept : ∀ k, ∀ mask ∈ masks k, ∃ b ∈ (srv.table.chan p).list k, irccmp b.banstr mask = 0
  sent : ∀ k, ∀ b ∈ (srv.table.chan p).list k, b.banstr ∈ masks k

section One

variable {cfg : Config} {me : Me} {srv srv' : Server} {link c : Nat} {peer : Nat → Nat} {ch : Channel}

theorem Burstable.noNul_chname (hb : Burstable me ch) : NoNul ch.chname := noNul_of_checkChannelName hb.check

theorem Burstable.chname_ne_nil (hb : Burstable me ch) : ch.chname ≠ [] := by
  intro hnil
  have hhash := hb.hash
  rw [hnil] at hhash
  cases hhash

theorem Burstable.atol_ts (hb : Burstable me ch) : atol (fmtInt ch.channelts) = ch.channelts :=
  atol_fmtInt hb.ts

theorem spaced_noNul {ws : List Bytes} (h : ∀ w ∈ ws, NoNul w) : NoNul (spaced ws) := by
  intro hmem
  obtain ⟨w, hw, hmem⟩ := List.mem_flatMap.mp (List.dropLast_subset _ hmem)
  rcases List.mem_append.mp hmem with hmem | hmem
  · exact h w hw hmem
  · exact absurd (List.mem_singleton.mp hmem) (by decide)

/-- An `SJOIN` whose users are all new, where no modes are lost. -/
theorem sjoinChannel_entered {m : Sjoin} {isnew : Bool} {newts : Int} {mode : Mode} {users : Bytes}
    {ch : Channel} {xs : List (Nat × UInt8)} (hours : (tsCompare isnew ch.channelts newts).keepOurModes = true)
    (hnew : (tsCompare isnew ch.channelts newts).keepNewModes = true)
    (husers : (sjoinUsers [] users).map (sjoinTarget srv m.link) = xs.map some)
    (hnodup : ((xs ++ entered ch).map Prod.fst).Nodup) :
    entered (sjoinChannel srv m isnew newts mode users ch).1 = xs.reverse ++ entered ch ∧
      ∀ k, (sjoinChannel srv m isnew newts mode users ch).1.list k = ch.list k := by
  obtain ⟨v, hmembers, hlist, heq⟩ := @sjoinChannel_eq srv m isnew newts mode users ch
  have hv : entered v = entered ch := by
    unfold entered
    rw [hmembers, settled, if_pos hours]
  have hfinish : ∀ st : Channel × Nat,
      finished (tsCompare isnew ch.channelts newts) m.sourceId st = st := by
    intro st
    unfold finished
    rw [hours]
    split <;> rfl
  rw [heq, hfinish, hnew]
  refine ⟨?_, fun k => ?_⟩
  · rw [foldl_sjoinUser_entered xs _ (v, 0) husers (by rw [hv]; exact hnodup), hv]
  · rw [sjoinUsers_list]
    exact hlist k

/-- What an `SJOIN` of the burst is where it arrives. -/
structure Arrives (srv' : Server) (peer : Nat → Nat) (ch : Channel) (m : Sjoin) (l : List Membership) : Prop where
  wellFormed : m.wellFormed = true
  parsed : ∃ mode users, sjoinParse m = some (mode, users) ∧
    (sjoinUsers [] users).map (sjoinTarget srv' m.link) = (l.map (mark peer)).map some
  named : m.name = ch.chname
  stamped : atol m.ts = ch.channelts

theorem arrives (hb : Burstable me ch) (hk : Knows srv srv' link peer ch) {l : List Membership} (hl : l ≠ [])
    (hsub : l ⊆ ch.members) :
    Arrives srv' peer ch (burstSjoin ch link me.id (spaced (l.map (memberText srv)))) l := by
  have hwords : ∀ w ∈ l.map (memberText srv), w ≠ [] ∧ (32 : UInt8) ∉ w ∧ NoNul w := by
    intro w hw
    obtain ⟨m, hm, rfl⟩ := List.mem_map.mp hw
    exact memberText_word hk (hsub hm)
  have hne : l.map (memberText srv) ≠ [] := fun h => hl (List.map_eq_nil_iff.mp h)
  have hdrop : (spaced (l.map (memberText srv))).dropWhile (· == 32) = spaced (l.map (memberText srv)) ∧
      spaced (l.map (memberText srv)) ≠ [] := by
    obtain ⟨w, ws, heq⟩ := List.exists_cons_of_ne_nil hne
    obtain ⟨hnil, hblank, -⟩ := hwords w (by rw [heq]; exact List.mem_cons_self)
    obtain ⟨b, r, rfl⟩ := List.exists_cons_of_ne_nil hnil
    rw [List.mem_cons, not_or] at hblank
    rw [heq, spaced_cons, List.cons_append]
    exact ⟨List.dropWhile_cons_of_neg (by simpa using Ne.symm hblank.1), List.cons_ne_nil _ _⟩
  refine ⟨burstSjoin_wellFormed hb.mode (spaced_noNul fun w hw => (hwords w hw).2.2), ?_, rfl, hb.atol_ts⟩
  have hparse := @burstSjoin_parse ch link me.id (spaced (l.map (memberText srv))) hb.mode hb.check hb.hash
    (by rw [hdrop.1]; exact hdrop.2)
  rw [hdrop.1] at hparse
  refine ⟨_, _, hparse, ?_⟩
  rw [sjoinUsers_spaced _ (fun w hw => ⟨(hwords w hw).1, (hwords w hw).2.1⟩) hne, List.map_map, List.map_map]
  exact List.map_congr_left fun m hm => sjoinTarget_member hk (hsub hm)

/-- The first line makes the channel. -/
theorem Arrives.first {m : Sjoin} {l : List Membership} (hm : Arrives srv' peer ch m l) (hb : Burstable me ch)
    (hl : l ≠ []) (hnodup : ((l.map (mark peer)).map Prod.fst).Nodup) (hok : TableOk srv'.table)
    (hnone : findChannel srv'.table ch.chname = none) (now : Int) :
    Carried srv' (msSjoin srv' m now) ch srv'.table.next (l.map (mark peer)).reverse fun _ => [] := by
  obtain ⟨mode, users, hparse, husers⟩ := hm.parsed
  rw [findChannel, if_neg hb.chname_ne_nil] at hnone
  have hsome : ∃ u ∈ sjoinUsers [] users, (sjoinTarget srv' m.link u).isSome := by
    cases hcons : sjoinUsers [] users with
    | nil =>
      rw [hcons] at husers
      exact absurd (List.map_eq_nil_iff.mp (List.map_eq_nil_iff.mp husers.symm)) hl
    | cons u rest =>
      obtain ⟨x, l, rfl⟩ := List.exists_cons_of_ne_nil hl
      rw [hcons] at husers
      obtain ⟨hu, -⟩ := List.cons.inj husers
      exact ⟨u, List.mem_cons_self, by rw [hu]; rfl⟩
  have hholds := msSjoin_new hok hb.noNul_chname hb.chname (hm.named ▸ hnone)
    ⟨hm.wellFormed, by rw [hm.named]; exact irccmp_self _, mode, users, hparse, hsome⟩ now
  rw [Sjoin.stamped_eq hparse, hm.stamped] at hholds
  have hget : getOrCreateChannel srv'.table m.name now
      = (srv'.table.add m.name now, some (srv'.table.next, true)) := by
    have hcut : lookupName m.name = ch.chname := by rw [hm.named, lookupName_of_lt hb.chname]
    rw [getOrCreateChannel_new (hm.named ▸ hb.chname_ne_nil) (by rw [hcut, hnone]), hcut, hm.named]
  have hchan := Announce.msSjoin_chan hparse hget
  have hempty : (srv'.table.add m.name now).chan srv'.table.next = allocateChannel m.name now :=
    Table.chan_add ..
  rw [hempty] at hchan
  obtain ⟨henter, hlist⟩ := @sjoinChannel_entered srv' m true (atol m.ts) mode users
    (allocateChannel m.name now) (l.map (mark peer)) rfl rfl husers (by
      rw [show entered (allocateChannel m.name now) = [] from rfl, List.append_nil]
      exact hnodup)
  refine ⟨⟨_, hholds⟩, msSjoin_same_clients srv' m now, ?_, fun k mask hmask => absurd hmask List.not_mem_nil,
    fun k b hb' => ?_⟩
  · rw [hchan, henter]
    exact List.append_nil _
  · rw [hchan, hlist] at hb'
    cases k <;> exact absurd hb' List.not_mem_nil

theorem tsCompare_self (ts : Int) : tsCompare false ts ts = ⟨ts, true, true⟩ := by
  unfold tsCompare
  rw [if_neg Bool.false_ne_true]
  by_cases hzero : ts = 0
  · rw [if_pos (Or.inl hzero), hzero]
  · rw [if_neg (not_or.mpr ⟨hzero, hzero⟩), if_pos rfl]

theorem Carried.lookup {s : Server} {p : Nat} {seen : List (Nat × UInt8)} {masks : BanType → List Bytes}
    (h : Carried srv' s ch p seen masks) (hb : Burstable me ch) : s.table.lookup ch.chname = some p := by
  obtain ⟨mode, hholds⟩ := h.holds
  exact hholds.lookup hb.noNul_chname hb.noNul_chname (irccmp_self _)

/-- The channel is written back with its name and its time stamp. -/
theorem Carried.write {s : Server} {p : Nat} {seen : List (Nat × UInt8)} {masks : BanType → List Bytes}
    (h : Carried srv' s ch p seen masks) {ch' : Channel} (hname : ch'.chname = (s.table.chan p).chname)
    (hts : ch'.channelts = ch.channelts) {seen' : List (Nat × UInt8)} {masks' : BanType → List Bytes}
    (henter : BurstLists.entered ch' = seen')
    (hkept : ∀ k, ∀ mask ∈ masks' k, ∃ b ∈ ch'.list k, irccmp b.banstr mask = 0)
    (hsent : ∀ k, ∀ b ∈ ch'.list k, b.banstr ∈ masks' k) :
    Carried srv' { s with table := s.table.setChan p ch' } ch p seen' masks' := by
  obtain ⟨mode, hholds⟩ := h.holds
  have hwrite := holds_setChan s hholds.ok hholds.listed hholds.named hholds.only hname
  rw [hts] at hwrite
  have hchan : (s.table.setChan p ch').chan p = ch' := s.table.chan_setChan p ch'
  refine ⟨⟨_, hwrite⟩, h.clients, ?_, ?_, ?_⟩
  · rw [hchan]
    exact henter
  · rw [hchan]
    exact hkept
  · rw [hchan]
    exact hsent

/-- The next lines merge into it. -/
theorem Arrives.again {m : Sjoin} {l : List Membership} (hm : Arrives srv' peer ch m l) (hb : Burstable me ch)
    {s : Server} {p : Nat} {seen : List (Nat × UInt8)} {masks : BanType → List Bytes}
    (h : Carried srv' s ch p seen masks) (hnodup : ((l.map (mark peer) ++ seen).map Prod.fst).Nodup) (now : Int) :
    Carried srv' (msSjoin s m now) ch p ((l.map (mark peer)).reverse ++ seen) masks := by
  obtain ⟨mode, users, hparse, husers⟩ := hm.parsed
  obtain ⟨oldmode, hholds⟩ := h.holds
  have hget : getOrCreateChannel s.table m.name now = (s.table, some (p, false)) := by
    refine getOrCreateChannel_found (hm.named ▸ hb.chname_ne_nil) ?_ now
    rw [hm.named, lookupName_of_lt hb.chname, h.lookup hb]
  have hts : tsCompare false (s.table.chan p).channelts (atol m.ts) = ⟨ch.channelts, true, true⟩ := by
    rw [hm.stamped, hholds.channelts, tsCompare_self]
  have htargets : (sjoinUsers [] users).map (sjoinTarget s m.link) = (l.map (mark peer)).map some := by
    rw [← husers]
    exact List.map_congr_left fun u _ => sjoinTarget_congr h.clients m.link u
  obtain ⟨henter, hlist⟩ := @sjoinChannel_entered s m false (atol m.ts) mode users (s.table.chan p)
    (l.map (mark peer)) (by rw [hts]) (by rw [hts]) htargets (by rw [h.entered]; exact hnodup)
  obtain ⟨hname, -, hstamp⟩ := @sjoinChannel_fields s m false (atol m.ts) mode users (s.table.chan p)
  rw [hts] at hstamp
  have hstep : msSjoin s m now =
      { s with table := s.table.setChan p (sjoinChannel s m false (atol m.ts) mode users (s.table.chan p)).1 } := by
    unfold msSjoin
    simp only [hparse, hget, Bool.false_eq_true, and_false, if_false]
  rw [hstep]
  refine h.write hname hstamp (by rw [henter, h.entered]) (fun k => ?_) fun k => ?_
  · rw [hlist]
    exact h.kept k
  · rw [hlist]
    exact h.sent k

end One

-- ============================================================================
-- One BMASK
-- ============================================================================

/-- What masks do to a list, and to nothing else. -/
structure Grown (k : BanType) (masks : List Bytes) (ch ch' : Channel) : Prop where
  chname : ch'.chname = ch.chname
  channelts : ch'.channelts = ch.channelts
  members : ch'.members = ch.members
  other : ∀ j, j ≠ k → ch'.list j = ch.list j
  old : ∀ b ∈ ch.list k, b ∈ ch'.list k
  kept : ∀ mask ∈ masks, ∃ b ∈ ch'.list k, irccmp b.banstr mask = 0
  sent : ∀ b ∈ ch'.list k, b ∈ ch.list k ∨ b.banstr ∈ masks

section Masks

variable {cfg : Config} {k : BanType} {source : Client} {now : Int}

theorem Grown.refl (ch : Channel) : Grown k [] ch ch :=
  ⟨rfl, rfl, rfl, fun _ _ => rfl, fun _ h => h, fun _ h => absurd h List.not_mem_nil, fun _ h => Or.inl h⟩

theorem Grown.trans {masks masks' : List Bytes} {ch ch' ch'' : Channel} (h : Grown k masks ch ch')
    (h' : Grown k masks' ch' ch'') : Grown k (masks ++ masks') ch ch'' where
  chname := h'.chname.trans h.chname
  channelts := h'.channelts.trans h.channelts
  members := h'.members.trans h.members
  other j hj := (h'.other j hj).trans (h.other j hj)
  old b hb := h'.old b (h.old b hb)
  kept mask hmask := by
    rcases List.mem_append.mp hmask with hmask | hmask
    · obtain ⟨b, hb, heq⟩ := h.kept mask hmask
      exact ⟨b, h'.old b hb, heq⟩
    · exact h'.kept mask hmask
  sent b hb := by
    rcases h'.sent b hb with hb | hb
    · rcases h.sent b hb with hb | hb
      · exact Or.inl hb
      · exact Or.inr (List.mem_append_left _ hb)
    · exact Or.inr (List.mem_append_right _ hb)

/-- A mask that is refused is in the list already. -/
theorem addId_grown (hsource : source.isServer = true) {mask : Bytes} (hlen : mask.length < banLen) (ch : Channel) :
    Grown k [mask] ch ((addId cfg ch source mask k now).getD ch) := by
  have hremote : ¬ source.myClient = true := by
    unfold Client.myClient Client.isClient
    rw [hsource, Bool.not_true, Bool.and_false]
    exact Bool.false_ne_true
  cases hadd : addId cfg ch source mask k now with
  | none =>
    have href : addRefused cfg ch source mask k = true := by
      unfold addId at hadd
      split at hadd
      · assumption
      · cases hadd
    unfold addRefused at href
    rw [if_neg hremote, List.any_eq_true] at href
    obtain ⟨b, hb, heq⟩ := href
    rw [Option.getD_none]
    refine ⟨rfl, rfl, rfl, fun _ _ => rfl, fun _ h => h, fun x hx => ?_, fun _ h => Or.inl h⟩
    rw [List.mem_singleton.mp hx]
    exact ⟨b, hb, beq_iff_eq.mp heq⟩
  | some ch' =>
    obtain ⟨-, rfl⟩ := addId_eq_some hadd
    have hcut : (allocateBan mask (banSetter source) now).banstr = mask := strlcpy_of_lt hlen
    rw [Option.getD_some]
    refine ⟨chname_setList_bumpFor .., channelts_setList_bumpFor .., members_setList_bumpFor ..,
      fun j hj => list_setList_bumpFor_of_ne _ _ _ _ hj, fun b hb => ?_, fun x hx => ?_, fun b hb => ?_⟩
    · rw [list_setList_bumpFor]
      exact List.mem_cons_of_mem _ hb
    · rw [list_setList_bumpFor, List.mem_singleton.mp hx]
      exact ⟨_, List.mem_cons_self, by rw [hcut]; exact irccmp_self mask⟩
    · rw [list_setList_bumpFor] at hb
      rcases List.mem_cons.mp hb with rfl | hb
      · rw [hcut]
        exact Or.inr List.mem_cons_self
      · exact Or.inl hb

theorem bmaskWalk_grown (hsource : source.isServer = true) (masks : List Bytes)
    (hlen : ∀ mask ∈ masks, mask.length < banLen) : ∀ ch, Grown k masks ch (bmaskWalk cfg source k now ch masks) := by
  induction masks with
  | nil => exact Grown.refl
  | cons mask masks ih =>
    intro ch
    have hrest := ih fun x hx => hlen x (List.mem_cons_of_mem _ hx)
    exact (addId_grown hsource (hlen mask List.mem_cons_self) ch).trans (hrest _)

variable {me : Me} {srv' : Server} {link c : Nat} {ch : Channel}

theorem banLetter_banFlag (k : BanType) : banLetter (banFlag k) = some k := by
  cases k <;> rfl

/-- A line of masks comes into the list. -/
theorem Carried.bmask (hb : Burstable me ch) {cl : Client} (hc : srv'.client c = some cl)
    (hserver : cl.isServer = true) {ws : List Bytes} (hne : ws ≠ [])
    (hws : ∀ w ∈ ws, Word w ∧ NoNul w ∧ w.length < banLen) {s : Server} {p : Nat} {seen : List (Nat × UInt8)}
    {masks : BanType → List Bytes} (h : Carried srv' s ch p seen masks) :
    ∃ s', s.step cfg (BurstLine.action me ch link c now (.bmask k ws)) = some s' ∧
      Carried srv' s' ch p seen (Function.update masks k (masks k ++ ws)) := by
  obtain ⟨mode, hholds⟩ := h.holds
  have hclient : s.client c = some cl := by
    unfold Server.client at hc ⊢
    rw [h.clients]
    exact hc
  have htarget : bmaskTarget s (fmtInt ch.channelts) ch.chname [banFlag k] = some (p, k) := by
    have hname : (!isChannelName ch.chname || !checkChannelName ch.chname) = false := by
      rw [isChannelName, hb.check, hb.hash]
      rfl
    unfold bmaskTarget
    rw [hname, if_neg Bool.false_ne_true, findChannel, if_neg hb.chname_ne_nil, h.lookup hb]
    simp only [hb.atol_ts, hholds.channelts, gt_iff_lt, lt_irrefl, if_false, List.headD_cons, banLetter_banFlag,
      Option.map_some]
  have hmasks : bmaskMasks (spaced ws) = ws := bmaskMasks_spaced
    (fun w hw => ⟨(hws w hw).1, Nat.le_of_lt (Nat.lt_trans (hws w hw).2.2 (by decide))⟩) hne
  have hnul : (cl.isServer && !(spaced ws).contains 0) = true := by
    have hno : (0 : UInt8) ∉ spaced ws := spaced_noNul fun w hw => (hws w hw).2.1
    rw [hserver, Bool.true_and, Bool.not_eq_true', Bool.eq_false_iff]
    exact fun h0 => hno (List.contains_iff_mem.mp h0)
  have hgrown : Grown k ws (s.table.chan p) (bmaskWalk cfg cl k now (s.table.chan p) ws) :=
    bmaskWalk_grown hserver ws (fun w hw => (hws w hw).2.2) _
  refine ⟨{ s with table := s.table.setChan p (bmaskWalk cfg cl k now (s.table.chan p) ws) }, ?_, ?_⟩
  · unfold BurstLine.action Server.step Server.withClient
    simp only [hclient, Option.bind_some, hnul, if_true, htarget, hmasks]
  · refine h.write hgrown.chname (hgrown.channelts.trans hholds.channelts) ?_ (fun j mask hmask => ?_)
      fun j b hb' => ?_
    · unfold BurstLists.entered
      rw [hgrown.members]
      exact h.entered
    · by_cases hj : j = k
      · subst hj
        rw [Function.update_self] at hmask
        rcases List.mem_append.mp hmask with hmask | hmask
        · obtain ⟨b, hb, heq⟩ := h.kept j mask hmask
          exact ⟨b, hgrown.old b hb, heq⟩
        · exact hgrown.kept mask hmask
      · rw [Function.update_of_ne hj] at hmask
        rw [hgrown.other j hj]
        exact h.kept j mask hmask
    · by_cases hj : j = k
      · subst hj
        rw [Function.update_self]
        rcases hgrown.sent b hb' with hb' | hb'
        · exact List.mem_append_left _ (h.sent j b hb')
        · exact List.mem_append_right _ hb'
      · rw [hgrown.other j hj] at hb'
        rw [Function.update_of_ne hj]
        exact h.sent j b hb'

end Masks

-- ============================================================================
-- All lines
-- ============================================================================

section Lines

variable {cfg : Config} {me : Me} {srv srv' : Server} {link c : Nat} {peer : Nat → Nat} {ch : Channel} {p : Nat}

theorem process_cons {s s' : Server} {x : BurstLine × Int} {l : List (BurstLine × Int)}
    (h : s.step cfg (x.1.action me ch link c x.2) = some s') :
    process cfg me ch link c s (x :: l) = process cfg me ch link c s' l := by
  unfold process
  rw [List.foldlM_cons, h]
  rfl

theorem process_append {s s' : Server} {l l' : List (BurstLine × Int)}
    (h : process cfg me ch link c s l = some s') :
    process cfg me ch link c s (l ++ l') = process cfg me ch link c s' l' := by
  unfold process at h ⊢
  rw [List.foldlM_append, h]
  rfl

/-- The lines of a list. -/
theorem process_masks (hb : Burstable me ch) {cl : Client} (hc : srv'.client c = some cl)
    (hserver : cl.isServer = true) (k : BanType) (ls : List (List Bytes)) : ∀ (l : List (BurstLine × Int))
      {s : Server} {seen : List (Nat × UInt8)} {masks : BanType → List Bytes},
      l.map Prod.fst = ls.map (.bmask k) → (∀ ws ∈ ls, ws ≠ []) →
      (∀ w ∈ ls.flatten, Word w ∧ NoNul w ∧ w.length < banLen) → Carried srv' s ch p seen masks →
      ∃ s', process cfg me ch link c s l = some s' ∧
        Carried srv' s' ch p seen (Function.update masks k (masks k ++ ls.flatten)) := by
  induction ls with
  | nil =>
    intro l s seen masks hl _ _ h
    rw [List.map_eq_nil_iff.mp hl, List.flatten_nil, List.append_nil, Function.update_eq_self]
    exact ⟨s, rfl, h⟩
  | cons ws ls ih =>
    intro l s seen masks hl hne hwords h
    obtain ⟨x, l, rfl⟩ : ∃ x rest, l = x :: rest := by
      cases l with
      | nil => cases hl
      | cons x rest => exact ⟨x, rest, rfl⟩
    obtain ⟨hx, hl⟩ := List.cons.inj hl
    rw [List.flatten_cons] at hwords
    obtain ⟨s', hstep, h'⟩ := @Carried.bmask cfg k x.2 me srv' link c ch hb cl hc hserver ws (hne ws List.mem_cons_self)
      (fun w hw => hwords w (List.mem_append_left _ hw)) s p seen masks h
    rw [← hx] at hstep
    obtain ⟨s'', hrun, h''⟩ := ih l hl (fun v hv => hne v (List.mem_cons_of_mem _ hv))
      (fun w hw => hwords w (List.mem_append_right _ hw)) h'
    rw [Function.update_idem, Function.update_self, List.append_assoc] at h''
    exact ⟨s'', by rw [process_cons hstep, hrun], h''⟩

theorem step_users (hb : Burstable me ch) (hk : Knows srv srv' link peer ch) {l : List Membership} (hl : l ≠ [])
    (hsub : l ⊆ ch.members) (s : Server) (now : Int) :
    s.step cfg (BurstLine.action me ch link c now (.sjoin (l.map (memberText srv)))) =
      some (msSjoin s (burstSjoin ch link me.id (spaced (l.map (memberText srv)))) now) :=
  if_pos (arrives hb hk hl hsub).wellFormed

/-- The lines of the members, once the channel is there. -/
theorem process_users (hb : Burstable me ch) (hk : Knows srv srv' link peer ch) (ls : List (List Membership)) :
    ∀ (l : List (BurstLine × Int)) {s : Server} {seen : List (Nat × UInt8)} {masks : BanType → List Bytes},
      l.map Prod.fst = ls.map (fun g => .sjoin (g.map (memberText srv))) → (∀ g ∈ ls, g ≠ []) →
      ls.flatten ⊆ ch.members → ((ls.flatten.map (mark peer) ++ seen).map Prod.fst).Nodup →
      Carried srv' s ch p seen masks →
      ∃ s', process cfg me ch link c s l = some s' ∧
        Carried srv' s' ch p ((ls.flatten.map (mark peer)).reverse ++ seen) masks := by
  induction ls with
  | nil =>
    intro l s seen masks hl _ _ _ h
    rw [List.map_eq_nil_iff.mp hl]
    exact ⟨s, rfl, h⟩
  | cons g ls ih =>
    intro l s seen masks hl hne hsub hnodup h
    obtain ⟨x, l, rfl⟩ : ∃ x rest, l = x :: rest := by
      cases l with
      | nil => cases hl
      | cons x rest => exact ⟨x, rest, rfl⟩
    obtain ⟨hx, hl⟩ := List.cons.inj hl
    have hx : x.1 = .sjoin (g.map (memberText srv)) := hx
    rw [List.flatten_cons] at hsub hnodup
    have hg : g ⊆ ch.members := fun m hm => hsub (List.mem_append_left _ hm)
    have hsplit : (g ++ ls.flatten).map (mark peer) = g.map (mark peer) ++ ls.flatten.map (mark peer) :=
      List.map_append
    rw [hsplit, List.append_assoc] at hnodup
    -- who comes now, who comes later and who was there are different users
    have hswap : ((ls.flatten.map (mark peer) ++ ((g.map (mark peer)).reverse ++ seen)).map Prod.fst).Nodup := by
      refine (List.Perm.nodup_iff (List.Perm.map _ ?_)).mp hnodup
      rw [← List.append_assoc, ← List.append_assoc]
      exact (List.perm_append_comm.trans
        ((List.reverse_perm (g.map (mark peer))).symm.append_left _)).append_right seen
    have hnow : ((g.map (mark peer) ++ seen).map Prod.fst).Nodup := by
      refine hnodup.sublist (List.Sublist.map _ ?_)
      exact (List.Sublist.refl _).append (List.sublist_append_right _ _)
    have h' := (arrives hb hk (hne g List.mem_cons_self) hg).again hb h hnow x.2
    obtain ⟨s', hrun, h''⟩ := ih l hl (fun v hv => hne v (List.mem_cons_of_mem _ hv))
      (fun m hm => hsub (List.mem_append_right _ hm)) hswap h'
    refine ⟨s', ?_, ?_⟩
    · rw [process_cons, hrun]
      rw [hx]
      exact step_users hb hk (hne g List.mem_cons_self) hg s x.2
    · rw [List.flatten_cons, List.map_append, List.reverse_append, List.append_assoc]
      exact h''

end Lines

-- ============================================================================
-- Whole bursts
-- ============================================================================

section Whole

variable {cfg cfg' : Config} {me : Me} {x : Link} {srv srv' : Server} {p link c : Nat} {peer : Nat → Nat}

theorem members_nodup_of_run (h : Reach (Server.step cfg) anyStep Server.start srv) :
    ∀ p, ((srv.table.chan p).members.map Membership.clientP).Nodup := by
  refine (Server.reachable_of_run h).forall_chan
    (P := fun ch => (ch.members.map Membership.clientP).Nodup) (fun s now hs => List.nodup_nil) ?_
  intro client ch ch' hu hch
  have hsame : ∀ f : Membership → Membership, (∀ m, (f m).clientP = m.clientP) →
      (ch.members.map f).map Membership.clientP = ch.members.map Membership.clientP := by
    intro f hf
    rw [List.map_map]
    exact List.map_congr_left fun m _ => hf m
  have hone : ∀ (d : Nat) (f : Membership → Membership), (∀ m, (f m).clientP = m.clientP) →
      ((ch.modifyMember d f).members.map Membership.clientP).Nodup := by
    intro d f hf
    unfold Channel.modifyMember
    rw [hsame _ fun m => by split; exacts [hf m, rfl]]
    exact hch
  cases hu with
  | mode => exact hch
  | stamp => exact hch
  | status f hf =>
    rw [hsame f fun m => (hf m).1]
    exact hch
  | enter d fl hd =>
    refine List.nodup_cons.mpr ⟨fun hmem => ?_, hch⟩
    obtain ⟨m, hm, heq⟩ := List.mem_map.mp hmem
    unfold Channel.isMember Channel.findMembership at hd
    rw [Option.isSome_eq_false_iff, Option.isNone_iff_eq_none, List.find?_eq_none] at hd
    exact hd m hm (beq_iff_eq.mpr heq)
  | leave => exact hch.sublist (List.filter_sublist.map _)
  | add source mask k now hok hnul hlen h =>
    obtain ⟨-, rfl⟩ := addId_eq_some h
    rw [members_setList_bumpFor]
    exact hch
  | del mask k h =>
    rw [delId_eq_some h, members_setList_bumpFor]
    exact hch
  | reset => exact hch
  | cache d who =>
    refine hone d _ fun m => ?_
    unfold cacheVerdict
    split
    · rfl
    · split <;> rfl
  | forget d => exact hone d _ fun m => rfl

/-- A server has a channel in a run, another one with the same clients does not, and they link. -/
structure Meet (cfg cfg' : Config) (me : Me) (x : Link) (srv srv' : Server) (p link c : Nat)
    (peer : Nat → Nat) : Prop where
  run : Reach (Server.step cfg) anyStep Server.start srv
  run' : Reach (Server.step cfg') anyStep Server.start srv'
  listed : p ∈ srv.table.globalChannelList
  member : (srv.table.chan p).members ≠ []
  id : me.id.length < idLen
  stamp : IsLong (srv.table.chan p).channelts
  knows : Knows srv srv' link peer (srv.table.chan p)
  unknown : findChannel srv'.table (srv.table.chan p).chname = none
  server : ∃ cl, srv'.client c = some cl ∧ cl.isServer = true
  ex : x.isCapable capEx = true
  ie : x.isCapable capIe = true

/-- The channel of the other server: the members with their statuses, and the masks as
    `irccmp` tells them apart. -/
structure SameChannel (peer : Nat → Nat) (ch ch' : Channel) : Prop where
  members : (ch'.members.map fun m => (m.clientP, m.flags &&& statusFlags)).Perm (ch.members.map (mark peer))
  kept : ∀ k, ∀ b ∈ ch.list k, ∃ b' ∈ ch'.list k, irccmp b'.banstr b.banstr = 0
  sent : ∀ k, ∀ b' ∈ ch'.list k, ∃ b ∈ ch.list k, b.banstr = b'.banstr

theorem Meet.burstable (h : Meet cfg cfg' me x srv srv' p link c peer)
    (hhash : (srv.table.chan p).chname.head? = some 35) : Burstable me (srv.table.chan p) := by
  have hreach := Server.reachable_of_run h.run
  refine ⟨⟨h.id, h.stamp, hreach.tableOk.length_lt p h.listed, ?_,
    fun k b hb => (hreach.stored p k b hb).2⟩, ?_, hhash, ban_word_of_run h.run p,
    fun k b hb => (hreach.stored p k b hb).1, members_nodup_of_run h.run p⟩
  · exact hreach.forall_chan (P := fun ch => ch.mode.Valid) (fun _ _ _ => Mode.valid_none)
      (fun _ _ _ hu => hu.modeValid) p
  · refine hreach.forall_chan (P := fun ch => checkChannelName ch.chname = true) ?_ ?_ p
    · exact fun s now hs => List.all_eq_true.mpr fun b hb =>
        List.all_eq_true.mp hs b (List.mem_of_mem_take hb)
    · intro client ch ch' hu hch
      rw [hu.chname]
      exact hch

theorem Carried.same {s : Server} {ch : Channel} {masks : BanType → List Bytes}
    (h : Carried srv' s ch p (ch.members.map (mark peer)).reverse masks)
    (hmasks : ∀ k, masks k = (ch.list k).map Ban.banstr) : SameChannel peer ch (s.table.chan p) := by
  refine ⟨?_, fun k b hb => ?_, fun k b' hb' => ?_⟩
  · have hidem : ∀ a s : UInt8, a &&& s &&& s = a &&& s := fun a s => by rw [UInt8.and_assoc, UInt8.and_self]
    have hmap : ((s.table.chan p).members.map fun m => (m.clientP, m.flags &&& statusFlags)) =
        (BurstLists.entered (s.table.chan p)).map fun x => (x.1, x.2 &&& statusFlags) := by
      unfold BurstLists.entered
      rw [List.map_map]
      rfl
    rw [hmap, h.entered, List.map_reverse, List.map_map]
    refine (List.reverse_perm _).trans (List.Perm.of_eq (List.map_congr_left fun m _ => ?_))
    exact Prod.ext rfl (hidem _ _)
  · exact h.kept k b.banstr (by rw [hmasks]; exact List.mem_map_of_mem hb)
  · have hmem := h.sent k b' hb'
    rw [hmasks] at hmem
    exact List.mem_map.mp hmem

/-- The burst of a global channel loses nothing, and none of its lines is cut. -/
theorem burst_lossless (h : Meet cfg cfg' me x srv srv' p link c peer)
    (hhash : (srv.table.chan p).chname.head? = some 35) {l : List (BurstLine × Int)}
    (hl : l.map Prod.fst = burstTs6 me x srv (srv.table.chan p)) :
    (∀ y ∈ l, (y.1.text me (srv.table.chan p)).length ≤ 510) ∧
    ∃ s q, process cfg' me (srv.table.chan p) link c srv' l = some s ∧
      findChannel s.table (srv.table.chan p).chname = some q ∧
      SameChannel peer (srv.table.chan p) (s.table.chan q) := by
  have hb := h.burstable hhash
  have hk := h.knows
  obtain ⟨cl, hc, hserver⟩ := h.server
  have hok' := (Server.reachable_of_run h.run').tableOk
  have hmember := h.member
  have hunknown := h.unknown
  generalize srv.table.chan p = ch at hb hk hmember hunknown hhash hl ⊢
  have hfit := @memberLines_fit me srv ch hb.toSized hmember fun m hm => (hk.uid m hm).length
  have hflat : (packFrom (memberFull srv (burstHeader me ch).length) (memberTlen srv) [] 0 ch.members).flatten =
      ch.members := flatten_packFrom ..
  have hlists := fun k => @burstModesTs6_fit me ch hb.toSized k
  obtain ⟨bans, hbans, hbansFlat, hbansFit⟩ := hlists .ban
  obtain ⟨exs, hexs, hexsFlat, hexsFit⟩ := hlists .exception
  obtain ⟨ies, hies, hiesFlat, hiesFit⟩ := hlists .invex
  unfold burstTs6 at hl
  rw [if_neg hmember, if_neg (not_not.mpr hhash), if_pos h.ex, if_pos h.ie, hbans, hexs, hies] at hl
  generalize packFrom (memberFull srv (burstHeader me ch).length) (memberTlen srv) [] 0 ch.members = users
    at hl hfit hflat
  constructor
  · intro y hy
    have hy : y.1 ∈ l.map Prod.fst := List.mem_map_of_mem hy
    rw [hl, List.mem_append, List.mem_append, List.mem_append] at hy
    rcases hy with ((hy | hy) | hy) | hy
    · obtain ⟨g, hg, heq⟩ := List.mem_map.mp hy
      exact heq ▸ (hfit g hg).2
    · obtain ⟨ws, hws, heq⟩ := List.mem_map.mp hy
      exact heq ▸ (hbansFit ws hws).2
    · obtain ⟨ws, hws, heq⟩ := List.mem_map.mp hy
      exact heq ▸ (hexsFit ws hws).2
    · obtain ⟨ws, hws, heq⟩ := List.mem_map.mp hy
      exact heq ▸ (hiesFit ws hws).2
  · obtain ⟨l, l₃, rfl, hl, hl₃⟩ := List.map_eq_append_iff.mp hl
    obtain ⟨l, l₂, rfl, hl, hl₂⟩ := List.map_eq_append_iff.mp hl
    obtain ⟨l₀, l₁, rfl, hl₀, hl₁⟩ := List.map_eq_append_iff.mp hl
    have hwords : ∀ k, ∀ w ∈ (ch.list k).map Ban.banstr, Word w ∧ NoNul w ∧ w.length < banLen := by
      intro k w hw
      obtain ⟨b, hb', rfl⟩ := List.mem_map.mp hw
      exact ⟨hb.words k b hb', hb.noNul k b hb', hb.bans k b hb'⟩
    have hnodup : ((ch.members.map (mark peer)).map Prod.fst).Nodup := by
      have hmap : (ch.members.map (mark peer)).map Prod.fst = (ch.members.map Membership.clientP).map peer := by
        rw [List.map_map, List.map_map]
        rfl
      rw [hmap]
      refine List.Nodup.map_on (fun a ha d hd heq => ?_) hb.nodup
      obtain ⟨m, hm, rfl⟩ := List.mem_map.mp ha
      obtain ⟨n, hn, rfl⟩ := List.mem_map.mp hd
      exact hk.distinct m hm n hn heq
    -- the first line makes the channel
    cases users with
    | nil => exact absurd hflat.symm hmember
    | cons g users =>
      obtain ⟨y, l₀, rfl⟩ : ∃ y rest, l₀ = y :: rest := by
        cases l₀ with
        | nil => cases hl₀
        | cons y rest => exact ⟨y, rest, rfl⟩
      obtain ⟨hy, hl₀⟩ := List.cons.inj hl₀
      have hy : y.1 = .sjoin (g.map (memberText srv)) := hy
      have hg := (hfit g List.mem_cons_self).1
      rw [List.flatten_cons] at hflat
      have hsub : g ⊆ ch.members ∧ users.flatten ⊆ ch.members := by
        rw [← hflat]
        exact ⟨List.subset_append_left _ _, List.subset_append_right _ _⟩
      rw [← hflat, List.map_append] at hnodup
      have hfirst := (arrives hb hk hg hsub.1).first hb hg
        (hnodup.sublist (List.Sublist.map _ (List.sublist_append_left _ _))) hok' hunknown y.2
      have hrest : ((users.flatten.map (mark peer) ++ (g.map (mark peer)).reverse).map Prod.fst).Nodup :=
        (List.Perm.nodup_iff (List.Perm.map _ (List.perm_append_comm.trans
          ((List.reverse_perm _).symm.append_left _)))).mp hnodup
      obtain ⟨s₀, hrun₀, h₀⟩ := @process_users cfg' me srv srv' link c peer ch _ hb hk users l₀ _ _ _ hl₀
        (fun v hv => (hfit v (List.mem_cons_of_mem _ hv)).1) hsub.2 hrest hfirst
      rw [← List.reverse_append, ← List.map_append, hflat] at h₀
      obtain ⟨s₁, hrun₁, h₁⟩ := @process_masks cfg' me srv' link c ch _ hb cl hc hserver .ban bans l₁ _ _ _ hl₁
        (fun v hv => (hbansFit v hv).1) (by rw [hbansFlat]; exact hwords _) h₀
      obtain ⟨s₂, hrun₂, h₂⟩ := @process_masks cfg' me srv' link c ch _ hb cl hc hserver .exception exs l₂ _ _ _ hl₂
        (fun v hv => (hexsFit v hv).1) (by rw [hexsFlat]; exact hwords _) h₁
      obtain ⟨s₃, hrun₃, h₃⟩ := @process_masks cfg' me srv' link c ch _ hb cl hc hserver .invex ies l₃ _ _ _ hl₃
        (fun v hv => (hiesFit v hv).1) (by rw [hiesFlat]; exact hwords _) h₂
      refine ⟨s₃, _, ?_, ?_, h₃.same fun k => ?_⟩
      · have hstep := @step_users cfg' me srv srv' link c peer ch hb hk g hg hsub.1 srv' y.2
        rw [← hy] at hstep
        have e₀ := (process_cons hstep).trans hrun₀
        have e₁ := (process_append e₀).trans hrun₁
        exact (process_append ((process_append e₁).trans hrun₂)).trans hrun₃
      · rw [findChannel, if_neg hb.chname_ne_nil]
        exact h₃.lookup hb
      · cases k with
        | ban =>
          rw [Function.update_of_ne (by decide), Function.update_of_ne (by decide), Function.update_self,
            List.nil_append, hbansFlat]
        | exception =>
          rw [Function.update_of_ne (by decide), Function.update_self, Function.update_of_ne (by decide),
            List.nil_append, hexsFlat]
        | invex =>
          rw [Function.update_self, Function.update_of_ne (by decide), Function.update_of_ne (by decide),
            List.nil_append, hiesFlat]

end Whole

-- ============================================================================
-- Two servers
-- ============================================================================

/-- The server `alice` is on, towards one that takes all lists. -/
def home : Me := ⟨[104, 111, 109, 101], [48, 65, 65]⟩

def toTwin : Link := ⟨1, 0x14⟩

/-- The other server: there she is a remote user. -/
def twinServer : Server :=
  [Action.introduce { alice with link := 1, myConnect := false }, .introduce hub].foldl
    (Reach.perform (Server.step plainConfig)) Server.start

/-- Her channel arrives where she is its only member. -/
theorem meet_alice {srv : Server} {p : Nat} (hrun : Reach (Server.step plainConfig) anyStep Server.start srv)
    (hlisted : p ∈ srv.table.globalChannelList) (hclient : srv.client 0 = some alice)
    (hmembers : (srv.table.chan p).members = [⟨0, chflChanop, 0⟩]) (hts : (srv.table.chan p).channelts = 10)
    (hunknown : findChannel twinServer.table (srv.table.chan p).chname = none) :
    Meet plainConfig plainConfig home toTwin srv twinServer p 1 1 id := by
  have hid : memberId srv ⟨0, chflChanop, 0⟩ = alice.id := by
    unfold memberId
    rw [hclient]
    rfl
  refine ⟨hrun, Reach.performed_all _ .init, hlisted, ?_, by decide, ?_, ⟨?_, ?_, ?_⟩, hunknown,
    ⟨hub, rfl, rfl⟩, by decide, by decide⟩
  · rw [hmembers]
    exact List.cons_ne_nil _ _
  · rw [hts, IsLong]
    decide
  · intro m hm
    rw [hmembers] at hm
    rw [List.mem_singleton.mp hm, hid]
    exact ⟨by decide, by decide, by decide⟩
  · intro m hm
    rw [hmembers] at hm
    rw [List.mem_singleton.mp hm, hid]
    exact ⟨{ alice with link := 1, myConnect := false }, rfl, rfl, rfl⟩
  · exact fun m _ n _ h => h

/-- The channel with the bans `a!b@c` and `d`. -/
theorem burst_lossless_alice :
    let ch := (bmaskServer [97, 33, 98, 64, 99, 32, 100]).table.chan 0
    ∃ s q, process plainConfig home ch 1 1 twinServer
        ((burstTs6 home toTwin (bmaskServer [97, 33, 98, 64, 99, 32, 100]) ch).map fun y => (y, 30)) = some s ∧
      findChannel s.table ch.chname = some q ∧ SameChannel id ch (s.table.chan q) := by
  refine (@burst_lossless plainConfig plainConfig home toTwin _ twinServer 0 1 1 id (meet_alice ?_ ?_ ?_ ?_ ?_ ?_)
    (by decide) _ (by rw [List.map_map]; exact List.map_id' _)).2
  · exact (Reach.performed_all _ .init).performed trivial
  · decide
  · decide
  · decide
  · decide
  · decide

/-- The local channel `&a`. -/
def localServer : Server :=
  [Action.introduce alice, .join 0 [38, 97] [] true false 10].foldl
    (Reach.perform (Server.step plainConfig)) Server.start

/-- The channel with the bans `a...a` and `A...A`, cut from two longer masks. -/
def cutServer : Server :=
  bmaskServer (List.replicate 108 97 ++ 98 :: 32 :: List.replicate 108 65 ++ [99])

/-- The local channel does not arrive, and of two masks that differ in case one is lost. -/
theorem not_burst_lossless :
    (¬ ∀ (srv srv' : Server) (p link c : Nat) (peer : Nat → Nat) (l : List (BurstLine × Int)),
      Meet plainConfig plainConfig home toTwin srv srv' p link c peer →
      l.map Prod.fst = burstTs6 home toTwin srv (srv.table.chan p) →
      ∃ s q, process plainConfig home (srv.table.chan p) link c srv' l = some s ∧
        findChannel s.table (srv.table.chan p).chname = some q ∧
        SameChannel peer (srv.table.chan p) (s.table.chan q)) ∧
    ¬ ∀ (srv srv' : Server) (p link c : Nat) (peer : Nat → Nat) (l : List (BurstLine × Int)),
      Meet plainConfig plainConfig home toTwin srv srv' p link c peer →
      (srv.table.chan p).chname.head? = some 35 →
      l.map Prod.fst = burstTs6 home toTwin srv (srv.table.chan p) →
      ∃ s q, process plainConfig home (srv.table.chan p) link c srv' l = some s ∧
        findChannel s.table (srv.table.chan p).chname = some q ∧
        ∀ k mask, mask ∈ ((srv.table.chan p).list k).map Ban.banstr ↔
          mask ∈ ((s.table.chan q).list k).map Ban.banstr := by
  constructor
  · intro h
    obtain ⟨s, q, hrun, hfind, -⟩ := h localServer twinServer 0 1 1 id []
      (meet_alice (Reach.performed_all _ .init) (by decide) (by decide) (by decide)
        (by decide) (by decide)) (by decide)
    obtain rfl := Option.some.inj hrun
    have hnone : findChannel twinServer.table (localServer.table.chan 0).chname = none := by decide
    rw [hnone] at hfind
    cases hfind
  · intro h
    have hcut : Reach (Server.step plainConfig) anyStep Server.start cutServer := by
      unfold cutServer
      exact (Reach.performed_all _ .init).performed trivial
    obtain ⟨s, q, hrun, hfind, hmasks⟩ := h cutServer twinServer 0 1 1 id
      ((burstTs6 home toTwin cutServer (cutServer.table.chan 0)).map fun y => (y, 30))
      (meet_alice hcut (by decide) (by decide) (by decide) (by decide)
        (by decide)) (by decide) (by rw [List.map_map]; exact List.map_id' _)
    have hafter : (process plainConfig home (cutServer.table.chan 0) 1 1 twinServer
        ((burstTs6 home toTwin cutServer (cutServer.table.chan 0)).map fun y => (y, 30))).map
          (fun s => (findChannel s.table (cutServer.table.chan 0).chname,
            (s.table.chan 0).banlist.map Ban.banstr)) = some (some 0, [List.replicate 108 65]) := by
      decide
    rw [hrun, Option.map_some, hfind, Option.some_inj, Prod.mk.injEq, Option.some_inj] at hafter
    obtain ⟨rfl, hlist⟩ := hafter
    have hmem := (hmasks .ban (List.replicate 108 97)).mp (by decide)
    rw [show (s.table.chan 0).list .ban = (s.table.chan 0).banlist from rfl, hlist] at hmem
    revert hmem
    decide

end Bluebox.BurstLists
