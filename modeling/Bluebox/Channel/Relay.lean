/-
  Bluebox.Channel.Relay

  What `ms_sjoin` (`modules/core/m_join.c`) passes on: the users that it accepts, by nick
  to the servers without UIDs and by UID to the others, on lines that two buffers hold.

  The test before a user is put down reckons with a nick in the one buffer and with an ID
  in the other, but a user without an ID goes into both with its nick.  It sends a line
  with no user on it where the header leaves no room, and the header has lost its `:` then.
-/
import Mathlib.Data.List.Flatten
import Bluebox.Channel.Forward

namespace Bluebox.Relay

open Bluebox.Lib Bluebox.Chan Bluebox.Forward

-- ============================================================================
-- What is to be passed on
-- ============================================================================

/-- The incoming time stamp loses. -/
def TsLost (isnew : Bool) (oldts newts : Int) : Prop := isnew = false ∧ newts ≠ 0 ∧ oldts ≠ 0 ∧ oldts < newts

instance (isnew : Bool) (oldts newts : Int) : Decidable (TsLost isnew oldts newts) :=
  inferInstanceAs (Decidable (_ ∧ _))

/-- A user of a list, with the status before it, if it is there and behind the link. -/
def acceptedUser (srv : Server) (link : Nat) (s : Bytes) : Option (UInt8 × Client) :=
  match findClient srv (statusPrefix 3 0 s).2 with
  | none => none
  | some (_, target) => if target.link = link ∧ target.isClient then some ((statusPrefix 3 0 s).1, target) else none

/-- The users of a list that are accepted. -/
def accepted (srv : Server) (link : Nat) (list : List Bytes) : List (UInt8 × Client) :=
  list.filterMap (acceptedUser srv link)

/-- A user of a line, with its status unless that is `lost`. -/
def userText (lost : Prop) [Decidable lost] (name : Client → Bytes) (u : UInt8 × Client) : Bytes :=
  (if lost then [] else statusText true u.1) ++ name u.2

/-- The lines carry the users behind a header, in their order, and none is too long. -/
def Lossless (hdr : Bytes) (users : List Bytes) (lines : List Bytes) : Prop :=
  ∃ lists : List (List Bytes), lists.flatten = users ∧
    lines = lists.map (fun l => hdr ++ [32].intercalate l) ∧ ∀ line ∈ lines, line.length ≤ 510

/-- An `SJOIN` that is accepted and brings somebody in: what it reads of its parameters, and
    the channel it finds. -/
structure Accepts (srv : Server) (m : Sjoin) (now : Int) (mode : Mode) (users : Bytes) (t : Table) (p : Nat)
    (isnew : Bool) : Prop where
  parse : sjoinParse m = some (mode, users)
  channel : getOrCreateChannel srv.table m.name now = (t, some (p, isnew))
  joins : (sjoinChannel srv m isnew (atol m.ts) mode users (t.chan p)).2 ≠ 0

/-- The buffers are not written to behind their ends, and every other server is given the
    users. -/
def Relayed (sl : ServList) (srv : Server) (m : Sjoin) (source : Bytes) (now : Int) (users : Bytes) (lost : Prop)
    [Decidable lost] : Prop :=
  ∃ k sent, sjoinPacked srv m source now = some k ∧ msSjoinSends sl srv m source now = some sent ∧
    ∀ x ∈ sl.links, x.id ≠ m.link →
      if x.isCapable capTs6 then
        Lossless k.hdrUid ((accepted srv m.link (sjoinUsers [] users)).map (userText lost useId))
          ((linesTo x.id sent).map Line.text)
      else
        Lossless k.hdrNick ((accepted srv m.link (sjoinUsers [] users)).map (userText lost Client.name))
          ((linesTo x.id sent).map Line.text)

/-- No line of the two buffers gets too full, and the header for another server leaves room
    for a user. -/
def Roomy (sl : ServList) (srv : Server) (m : Sjoin) (source : Bytes) (now : Int) : Prop :=
  ∀ k, sjoinPacked srv m source now = some k →
    Within (bufFull k.hdrNick nickLen) Entry.width (bufSize - k.hdrNick.length) 0 (k.entries.map Prod.fst) ∧
    Within (bufFull k.hdrUid idLen) Entry.width (bufSize - k.hdrUid.length) 0 (k.entries.map Prod.snd) ∧
    ∀ x ∈ sl.links, x.id ≠ m.link →
      if x.isCapable capTs6 then HasRoom k.hdrUid idLen else HasRoom k.hdrNick nickLen

-- ============================================================================
-- The users
-- ============================================================================

variable {srv : Server} {m : Sjoin} {now : Int} {mode : Mode} {users : Bytes} {t : Table} {p : Nat} {isnew : Bool}
  {sl : ServList} {source hdr : Bytes} {longest : Nat} {l : List Entry}

theorem keepNewModes_eq (isnew : Bool) (oldts newts : Int) :
    (tsCompare isnew oldts newts).keepNewModes = !decide (TsLost isnew oldts newts) := by
  rw [Bool.eq_iff_iff, Bool.not_eq_true', decide_eq_false_iff_not]
  unfold tsCompare TsLost
  by_cases hnew : isnew = true
  · rw [if_pos hnew]
    exact iff_of_true rfl fun h => Bool.false_ne_true (h.1.symm.trans hnew)
  rw [if_neg hnew]
  by_cases hzero : newts = 0 ∨ oldts = 0
  · rw [if_pos hzero]
    exact iff_of_true rfl fun h => hzero.elim h.2.1 h.2.2.1
  rw [if_neg hzero]
  by_cases hsame : newts = oldts
  · rw [if_pos hsame]
    exact iff_of_true rfl fun h => absurd hsame h.2.2.2.ne'
  rw [if_neg hsame]
  by_cases hwins : newts < oldts
  · rw [if_pos hwins]
    exact iff_of_true rfl fun h => absurd h.2.2.2 (not_lt.mpr hwins.le)
  · rw [if_neg hwins]
    refine iff_of_false Bool.false_ne_true (not_not.mpr ⟨Bool.not_eq_true _ ▸ hnew, ?_, ?_, ?_⟩)
    · exact fun h => hzero (Or.inl h)
    · exact fun h => hzero (Or.inr h)
    · exact lt_of_le_of_ne (not_lt.mp hwins) (Ne.symm hsame)

theorem statusText_eq (lost : Prop) [Decidable lost] (fl : UInt8) :
    statusText (!decide lost) fl = if lost then [] else statusText true fl := by
  by_cases hlost : lost
  · rw [decide_eq_true hlost, if_pos hlost]
    rfl
  · rw [decide_eq_false hlost, if_neg hlost]
    rfl

/-- What goes into the buffers is what is to be passed on. -/
theorem sjoinEntry_text (link : Nat) (lost : Prop) [Decidable lost] (s : Bytes) :
    (sjoinEntry srv link (!decide lost) s).map (fun e => (e.1.text, e.2.text)) =
      (acceptedUser srv link s).map fun u => (userText lost Client.name u, userText lost useId u) := by
  unfold sjoinEntry sjoinTarget acceptedUser userText
  cases hfind : findClient srv (statusPrefix 3 0 s).2 with
  | none =>
    simp only [hfind]
    rfl
  | some y =>
    obtain ⟨c, target⟩ := y
    simp only [hfind]
    by_cases hbehind : target.link = link ∧ target.isClient = true
    · rw [if_pos hbehind, if_pos hbehind, Option.map_some, Option.map_some, statusText_eq]
    · rw [if_neg hbehind, if_neg hbehind]
      rfl

theorem sjoinEntries_text (link : Nat) (lost : Prop) [Decidable lost] (list : List Bytes) :
    ((list.filterMap (sjoinEntry srv link !decide lost)).map Prod.fst).map Entry.text =
        (accepted srv link list).map (userText lost Client.name) ∧
      ((list.filterMap (sjoinEntry srv link !decide lost)).map Prod.snd).map Entry.text =
        (accepted srv link list).map (userText lost useId) := by
  have hpairs : (list.filterMap (sjoinEntry srv link !decide lost)).map (fun e => (e.1.text, e.2.text)) =
      (accepted srv link list).map fun u => (userText lost Client.name u, userText lost useId u) := by
    unfold accepted
    rw [List.map_filterMap, List.map_filterMap]
    exact List.filterMap_congr fun s _ => sjoinEntry_text link lost s
  have hfst := congrArg (List.map Prod.fst) hpairs
  have hsnd := congrArg (List.map Prod.snd) hpairs
  rw [List.map_map, List.map_map] at hfst hsnd
  rw [List.map_map, List.map_map]
  exact ⟨hfst, hsnd⟩

-- ============================================================================
-- The lines
-- ============================================================================

/-- A line with users. -/
theorem dropLast_bufText (hdr : Bytes) (hl : l ≠ []) :
    (bufText hdr l).dropLast = hdr ++ [32].intercalate (l.map Entry.text) := by
  have hblank : (l.map fun e => e.text ++ [32]).flatten = [32].intercalate (l.map Entry.text) ++ [32] := by
    induction l with
    | nil => exact absurd rfl hl
    | cons e l ih =>
      cases l with
      | nil =>
        rw [List.map_singleton, List.flatten_singleton, List.map_singleton, List.intercalate_singleton]
      | cons e' l =>
        have hrest := ih (List.cons_ne_nil e' l)
        rw [List.map_cons, List.map_cons] at hrest
        rw [List.map_cons, List.map_cons, List.map_cons, List.map_cons, List.intercalate_cons_cons, List.flatten_cons,
          hrest, List.append_assoc, List.append_assoc, List.append_assoc]
  unfold bufText
  rw [hblank, ← List.append_assoc, List.dropLast_concat]

/-- Where there is room, the lines carry the users. -/
theorem lossless_of_room (hne : l ≠ []) (hroom : HasRoom hdr longest)
    (hwithin : Within (bufFull hdr longest) Entry.width (bufSize - hdr.length) 0 l) :
    Lossless hdr (l.map Entry.text) ((bufLines hdr longest l).map Line.text) := by
  have hfirst : ∀ e, bufFull hdr longest 0 e = false := by
    unfold HasRoom at hroom
    exact fun e => decide_eq_false (by omega)
  have hne' : ∀ r ∈ packFrom (bufFull hdr longest) Entry.width [] 0 l, r ≠ [] := packFrom_ne_nil hne hfirst
  have hfits := packFrom_within l [] 0 rfl (room_pos_of_within hne hwithin) hwithin
  -- the last byte of a line is a blank, and the line is not cut
  have htext : ∀ r ∈ packFrom (bufFull hdr longest) Entry.width [] 0 l,
      (bufLine hdr ⟨r, false⟩).text = hdr ++ [32].intercalate (r.map Entry.text) ∧
        (hdr ++ [32].intercalate (r.map Entry.text)).length ≤ 510 := by
    intro r hr
    have hlen : (bufText hdr r).length < bufSize := by
      rw [length_bufText]
      have h := hfits r hr
      unfold bufUsed
      omega
    have hdrop : (bufText hdr r).dropLast.length ≤ 510 := by
      rw [List.length_dropLast]
      unfold bufSize at hlen
      omega
    rw [← dropLast_bufText hdr (hne' r hr)]
    exact ⟨List.take_of_length_le hdrop, hdrop⟩
  have hlines : (bufLines hdr longest l).map Line.text =
      ((packFrom (bufFull hdr longest) Entry.width [] 0 l).map (List.map Entry.text)).map
        fun r => hdr ++ [32].intercalate r := by
    rw [bufLines_eq hroom, List.map_map, List.map_map]
    exact List.map_congr_left fun r hr => (htext r hr).1
  refine ⟨(packFrom (bufFull hdr longest) Entry.width [] 0 l).map (List.map Entry.text), ?_, hlines, ?_⟩
  · rw [← List.map_flatten, flatten_packFrom, List.nil_append]
  · rw [hlines, List.map_map]
    intro line hline
    obtain ⟨r, hr, rfl⟩ := List.mem_map.mp hline
    exact (htext r hr).2

/-- Where there is none, they do not. -/
theorem room_of_lossless {users : List Bytes} (hhdr : 0 < hdr.length) (h : Lossless hdr users ((bufLines hdr longest l).map Line.text)) :
    HasRoom hdr longest := by
  by_contra hroom
  have hblank := bufLines_blank hroom l
  obtain ⟨lists, -, hlines, -⟩ := h
  obtain ⟨line, hline⟩ : ∃ line, line ∈ bufLines hdr longest l :=
    ⟨_, List.mem_append_right _ List.mem_cons_self⟩
  have htext : line.text ∈ (bufLines hdr longest l).map Line.text := List.mem_map_of_mem hline
  rw [hlines] at htext
  obtain ⟨r, -, hr⟩ := List.mem_map.mp htext
  have hlen := congrArg List.length hr
  rw [hblank line hline, List.length_append, List.length_take, List.length_dropLast] at hlen
  unfold HasRoom bufSize at hroom
  omega

-- ============================================================================
-- SJOIN
-- ============================================================================

/-- What an `SJOIN` that is accepted packs. -/
theorem Accepts.packed (h : Accepts srv m now mode users t p isnew) (source : Bytes) :
    ∃ k, sjoinPacked srv m source now = some k ∧ 0 < k.hdrNick.length ∧ 0 < k.hdrUid.length ∧
      k.entries = (sjoinUsers [] users).filterMap
        (sjoinEntry srv m.link !decide (TsLost isnew (t.chan p).channelts (atol m.ts))) ∧
      k.entries ≠ [] ∧ k.joins ≠ 0 := by
  obtain ⟨entered, hnamed, -, hcount⟩ := @sjoinChannel_entered srv m isnew (atol m.ts) mode users (t.chan p)
  obtain ⟨d, hd⟩ : ∃ d, d ∈ entered := by
    refine List.exists_mem_of_ne_nil entered fun hnil => h.joins ?_
    rw [hcount, hnil]
    rfl
  obtain ⟨s, hs, fl, htarget⟩ := hnamed d hd
  obtain ⟨e, hentry, -⟩ := sjoinEntry_of_target (tsCompare isnew (t.chan p).channelts (atol m.ts)).keepNewModes htarget
  unfold sjoinPacked
  simp only [h.parse, h.channel]
  refine ⟨_, rfl, Nat.succ_pos _, Nat.succ_pos _, ?_, ?_, h.joins⟩
  · rw [keepNewModes_eq]
  · exact List.ne_nil_of_mem (List.mem_filterMap.mpr ⟨s, hs, hentry⟩)

/-- An `SJOIN` is passed on as it was accepted when the lines fit the buffers and the headers
    leave room. -/
theorem relayed_iff (sl : ServList) (source : Bytes) (h : Accepts srv m now mode users t p isnew) :
    Relayed sl srv m source now users (TsLost isnew (t.chan p).channelts (atol m.ts)) ↔ Roomy sl srv m source now := by
  obtain ⟨k, hk, hnick, huid, hentries, hne, hjoins⟩ := h.packed source
  have hsome := @packUsers_isSome sl m.link k.hdrNick k.hdrUid k.entries Bufs.start
  obtain ⟨htextNick, htextUid⟩ := @sjoinEntries_text srv m.link
    (TsLost isnew (t.chan p).channelts (atol m.ts)) _ (sjoinUsers [] users)
  rw [← hentries] at htextNick htextUid
  unfold Relayed Roomy
  rw [← htextNick, ← htextUid]
  constructor
  · rintro ⟨k', sent, hk', hsent, hall⟩ k'' hk''
    obtain rfl := Option.some.inj (hk.symm.trans hk')
    obtain rfl := Option.some.inj (hk.symm.trans hk'')
    unfold msSjoinSends at hsent
    simp only [hk] at hsent
    split at hsent
    · obtain ⟨st, hst, -⟩ := Option.map_eq_some_iff.mp hsent
      obtain ⟨hwn, hwu⟩ := hsome.mp (by rw [hst]; rfl)
      refine ⟨hwn, hwu, fun x hx hlink => ?_⟩
      have hx' := hall x hx hlink
      rw [linesTo_sjoinSends hx hlink hjoins hsent] at hx'
      by_cases hts6 : x.isCapable capTs6 = true
      · rw [if_pos hts6, if_pos hts6] at hx'
        rw [if_pos hts6]
        exact room_of_lossless huid hx'
      · rw [if_neg hts6, if_neg hts6] at hx'
        rw [if_neg hts6]
        exact room_of_lossless hnick hx'
    · cases hsent
  · intro hroomy
    obtain ⟨hwn, hwu, hroom⟩ := hroomy k hk
    have hneNick : k.entries.map Prod.fst ≠ [] := fun hnil => hne (List.map_eq_nil_iff.mp hnil)
    have hneUid : k.entries.map Prod.snd ≠ [] := fun hnil => hne (List.map_eq_nil_iff.mp hnil)
    have hfit : k.hdrNick.length < bufSize ∧ k.hdrUid.length < bufSize :=
      ⟨Nat.lt_of_sub_pos (room_pos_of_within hneNick hwn), Nat.lt_of_sub_pos (room_pos_of_within hneUid hwu)⟩
    obtain ⟨st, hst⟩ := Option.isSome_iff_exists.mp (hsome.mpr ⟨hwn, hwu⟩)
    obtain ⟨sent, hsent⟩ : ∃ sent, sjoinSends sl m.link k.hdrNick k.hdrUid k.entries k.joins = some sent :=
      ⟨_, congrArg (Option.map _) hst⟩
    refine ⟨k, sent, hk, ?_, fun x hx hlink => ?_⟩
    · unfold msSjoinSends
      simp only [hk]
      rw [if_pos hfit, hsent]
    · have hx' := hroom x hx hlink
      rw [linesTo_sjoinSends hx hlink hjoins hsent]
      by_cases hts6 : x.isCapable capTs6 = true
      · rw [if_pos hts6] at hx'
        rw [if_pos hts6, if_pos hts6]
        exact lossless_of_room hneUid hx' hwu
      · rw [if_neg hts6] at hx'
        rw [if_neg hts6, if_neg hts6]
        exact lossless_of_room hneNick hx' hwn

/-- Where the texts are as short as the test reckons, the lines fit. -/
theorem within_of_short (hroom : HasRoom hdr longest) (hshort : ∀ e ∈ l, e.width ≤ longest + 3) :
    Within (bufFull hdr longest) Entry.width (bufSize - hdr.length) 0 l := by
  intro before e after hl
  have hwidth := hshort e (hl ▸ List.mem_append_right before List.mem_cons_self)
  unfold HasRoom bufSize at hroom
  unfold bufSize
  generalize before.foldl (fill (bufFull hdr longest) Entry.width) 0 = used
  unfold fill
  by_cases hfull : bufFull hdr longest used e = true
  · rw [if_pos hfull]
    omega
  · rw [if_neg hfull]
    have hleft : ¬ hdr.length + used + longest + 3 > 512 - 3 := fun h => hfull (decide_eq_true h)
    omega

theorem length_statusText (keep : Bool) (fl : UInt8) : (statusText keep fl).length ≤ 3 := by
  have hone : ∀ (c : Prop) [Decidable c] (b : UInt8), (if c then [b] else []).length ≤ 1 := by
    intro c _ b
    split
    · exact Nat.le_refl 1
    · exact Nat.zero_le 1
  unfold statusText
  split
  · rw [List.length_append, List.length_append]
    exact Nat.add_le_add (Nat.add_le_add (hone _ _) (hone _ _)) (hone _ _)
  · exact Nat.zero_le 3

/-- The lines get too full only where a user has no ID. -/
theorem roomy_of_ids (sl : ServList) (h : Accepts srv m now mode users t p isnew)
    (hids : ∀ u ∈ accepted srv m.link (sjoinUsers [] users),
      u.2.name.length < nickLen ∧ u.2.id ≠ [] ∧ u.2.id.length < idLen)
    (hroom : ∀ k, sjoinPacked srv m source now = some k → HasRoom k.hdrNick nickLen ∧ HasRoom k.hdrUid idLen) :
    Roomy sl srv m source now := by
  obtain ⟨k, hk, -, -, hentries, -⟩ := h.packed source
  obtain ⟨htextNick, htextUid⟩ := @sjoinEntries_text srv m.link
    (TsLost isnew (t.chan p).channelts (atol m.ts)) _ (sjoinUsers [] users)
  rw [← hentries] at htextNick htextUid
  obtain ⟨hroomNick, hroomUid⟩ := hroom k hk
  -- an entry is a status and a name
  have hwidth : ∀ {list : List Entry} {name : Client → Bytes} {longest : Nat},
      list.map Entry.text = (accepted srv m.link (sjoinUsers [] users)).map
        (userText (TsLost isnew (t.chan p).channelts (atol m.ts)) name) →
      (∀ u ∈ accepted srv m.link (sjoinUsers [] users), (name u.2).length < longest) →
      ∀ e ∈ list, e.width ≤ longest + 3 := by
    intro list name longest htext hname e he
    have hmem : e.text ∈ list.map Entry.text := List.mem_map_of_mem he
    rw [htext] at hmem
    obtain ⟨u, hu, heq⟩ := List.mem_map.mp hmem
    have hlen := hname u hu
    have hstatus := length_statusText (!decide (TsLost isnew (t.chan p).channelts (atol m.ts))) u.1
    rw [statusText_eq] at hstatus
    unfold Entry.width
    rw [← heq, userText, List.length_append]
    omega
  have hwn := within_of_short hroomNick (hwidth htextNick fun u hu => (hids u hu).1)
  have hwu := within_of_short hroomUid (hwidth htextUid fun u hu => by
    unfold useId
    rw [if_pos (hids u hu).2.1]
    exact (hids u hu).2.2)
  intro k' hk'
  obtain rfl := Option.some.inj (hk.symm.trans hk')
  refine ⟨hwn, hwu, fun x _ _ => ?_⟩
  split
  · exact hroomUid
  · exact hroomNick

-- ============================================================================
-- Users without IDs
-- ============================================================================

/-- `SJOIN 10 #a + :bob`. -/
def bobSjoin : Sjoin := ⟨1, [49, 65, 65], [49, 48], [35, 97], [43], [[98, 111, 98]]⟩

theorem bobSjoin_accepts : Accepts Forward.bobServer bobSjoin 20 Mode.none [98, 111, 98]
    (Forward.bobServer.table.add [35, 97] 20) 0 true where
  parse := by decide
  channel := getOrCreateChannel_new (by decide)
    (by decide : Forward.bobServer.table.lookup (lookupName [35, 97]) = none) 20
  joins := by decide

/-- The join of a user with an ID is passed on. -/
theorem relayed_bob : Relayed (threeLinks 0) Forward.bobServer bobSjoin [104] 20 [98, 111, 98]
    (TsLost true ((Forward.bobServer.table.add [35, 97] 20).chan 0).channelts (atol bobSjoin.ts)) := by
  refine (relayed_iff (threeLinks 0) [104] bobSjoin_accepts).mpr ?_
  have hpacked : (sjoinPacked Forward.bobServer bobSjoin [104] 20).map
      (fun k => (k.hdrNick, k.hdrUid, k.entries, k.joins)) = some
        (sjoinHeader [104] 10 [35, 97] [43], sjoinHeader [49, 65, 65] 10 [35, 97] [43],
          [(⟨[98, 111, 98], 0⟩, ⟨bob.id, 0⟩)], 1) := by
    decide
  obtain ⟨⟨hdrNick, hdrUid, entries, joins⟩, hk, heq⟩ := Option.map_eq_some_iff.mp hpacked
  cases heq
  intro k hk'
  obtain rfl := Option.some.inj (hk.symm.trans hk')
  obtain ⟨hwn, hwu⟩ := (@packUsers_isSome (threeLinks 0) 1 _ _ _ Bufs.start).mp (by decide :
    ([(⟨[98, 111, 98], 0⟩, ⟨bob.id, 0⟩)].foldlM (packUser (threeLinks 0) 1 (sjoinHeader [104] 10 [35, 97] [43])
      (sjoinHeader [49, 65, 65] 10 [35, 97] [43])) Bufs.start).isSome = true)
  refine ⟨hwn, hwu, fun x _ _ => ?_⟩
  split
  · decide
  · decide

/-- Fifteen users without IDs, whose nicks are as long as may be. -/
def oldServer : Server where
  table := (Table.start.add [35, 99] 1).setChan 0
    { allocateChannel [35, 99] 1 with channelts := 1, mode := { Mode.none with key := List.replicate 23 107 } }
  clients := (List.range 15).map fun i =>
    (i, { bob with name := List.replicate 29 (97 + UInt8.ofNat i), id := [], link := 7 })
  nextClient := 15

/-- `SJOIN 1 #c + :` with all of them. -/
def oldSjoin : Sjoin where
  link := 7
  sourceId := []
  ts := [49]
  name := [35, 99]
  modes := [43]
  params := [[32].intercalate (oldServer.clients.map fun x => x.2.name)]

/-- The name of their server. -/
def oldSource : Bytes := [111, 108, 100, 46] ++ List.replicate 26 97

theorem oldSjoin_accepts : Accepts oldServer oldSjoin 5 Mode.none ([32].intercalate (oldServer.clients.map fun x => x.2.name))
    oldServer.table 0 false where
  parse := by decide +kernel
  channel := getOrCreateChannel_found (by decide)
    (by decide : oldServer.table.lookup (lookupName [35, 99]) = some 0) 5
  joins := by decide

/-- The line that brings them is not too long, but with the key of the channel the last nick
    goes behind the end of the buffer for IDs. -/
theorem not_relayed : Accepts oldServer oldSjoin 5 Mode.none ([32].intercalate (oldServer.clients.map fun x => x.2.name))
      oldServer.table 0 false ∧
    (sjoinHeader oldSource 1 [35, 99] [43] ++ [32].intercalate (oldServer.clients.map fun x => x.2.name)).length ≤ 510 ∧
    ∀ (lost : Prop) [Decidable lost], ¬ Relayed (threeLinks 0) oldServer oldSjoin oldSource 5
      ([32].intercalate (oldServer.clients.map fun x => x.2.name)) lost := by
  refine ⟨oldSjoin_accepts, by decide +kernel, fun lost _ => ?_⟩
  have hnone : (msSjoinSends (threeLinks 0) oldServer oldSjoin oldSource 5).isNone = true := by decide +kernel
  rintro ⟨k, sent, -, hsent, -⟩
  rw [hsent] at hnone
  cases hnone

end Bluebox.Relay
