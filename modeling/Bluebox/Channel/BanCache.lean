/-
  Bluebox.Channel.BanCache

  The verdict of `is_banned` that `can_send` keeps in a membership.  It is valid
  as long as the serial of the channel is the one it was made for, so every
  change of the lists has to raise the serial, and every change of the names it
  was made from has to drop the verdict.

  The serial has 32 bits: the verdicts are right as long as it has not come
  round.  `match_cidr` compares what it finds by chance where a text is no address,
  so they are about the clients for whom it compares addresses only.
-/
import Bluebox.Channel.Run

namespace Bluebox.Chan

open Bluebox.Lib

-- ============================================================================
-- A nick that changes in case only
-- ============================================================================

/-- What stands before the last separator may be taken off first. -/
theorem splitLast_append {c : UInt8} {x : Bytes} (hx : c ∉ x) (y : Bytes) :
    splitLast c (x ++ y) = (splitLast c y).map fun r => (x ++ r.1, r.2) := by
  have hdrop : x.reverse.dropWhile (· != c) = [] := by
    rw [List.dropWhile_eq_nil_iff]
    intro b hb
    simpa using fun hbc : b = c => hx (hbc ▸ List.mem_reverse.mp hb)
  unfold splitLast
  rw [List.reverse_append, List.dropWhile_append, List.takeWhile_append]
  cases hy : y.reverse.dropWhile (· != c) with
  | nil => simp [hdrop]
  | cons b l =>
    have hlen : ¬ (y.reverse.takeWhile (· != c)).length = y.reverse.length := by
      intro hlen
      have hsum := congrArg List.length (@List.takeWhile_append_dropWhile _ (· != c) y.reverse)
      rw [List.length_append, hlen, hy, List.length_cons] at hsum
      omega
    rw [List.length_reverse] at hlen
    simp [hlen]

theorem lower_append (s t : Bytes) : lower (s ++ t) = lower s ++ lower t := List.map_append

/-- A nick changes the parts that `match_cidr` takes no more than it changes itself. -/
theorem cidrParts_nick {mask nick nick' r : Bytes} {p : CidrParts} (hn : (64 : UInt8) ∉ nick)
    (hn' : (64 : UInt8) ∉ nick') (h : lower nick = lower nick') (hp : cidrParts mask (nick ++ r) = some p) :
    ∃ address, lower address = lower p.address ∧
      cidrParts mask (nick' ++ r) = some { p with address := address } := by
  have hlen : nick.length = nick'.length := by
    have hl := congrArg List.length h
    rwa [lower, lower, List.length_map, List.length_map] at hl
  have hcut : ∀ {s : Bytes}, (64 : UInt8) ∉ s → (64 : UInt8) ∉ s.take (banLen - 1) := fun hs hmem =>
    hs (List.mem_of_mem_take hmem)
  have hlow : lower (nick.take (banLen - 1)) = lower (nick'.take (banLen - 1)) := by
    unfold lower at h ⊢
    rw [List.map_take, List.map_take, h]
  unfold cidrParts strlcpy at hp ⊢
  rw [List.take_append, splitLast_append (hcut hn)] at hp
  rw [List.take_append, splitLast_append (hcut hn'), ← hlen]
  cases hmask : splitLast 64 (mask.take (bufSize - 1)) with
  | none => simp [hmask] at hp
  | some m =>
    cases haddress : splitLast 64 (r.take (banLen - 1 - nick.length)) with
    | none => simp [hmask, haddress] at hp
    | some a =>
      cases hslash : splitLast 47 m.2 with
      | none => simp [hmask, haddress, hslash] at hp
      | some l =>
        simp only [hmask, haddress, hslash, Option.map_some] at hp ⊢
        split at hp
        · cases hp
        · split at hp
          · cases hp
          · rename_i hlen hfamily
            rw [if_neg hlen, if_neg hfamily]
            obtain rfl := Option.some.inj hp
            exact ⟨_, by rw [lower_append, lower_append, hlow], rfl⟩

-- ============================================================================
-- What a call of `match_cidr` finds by chance
-- ============================================================================

/-- The bits that are compared have all been written: both texts are addresses, and the length is
    no greater than theirs. -/
def CidrParts.Written (p : CidrParts) : Prop :=
  (rbInetPton p.v6 p.ip).isSome ∧ (rbInetPton p.v6 p.ipmask).isSome ∧ 0 < p.cidrlen ∧ p.cidrlen ≤ addrBits p.v6

/-- Every entry whose nick and user are those of the client compares addresses only. -/
def Channel.Settled (ch : Channel) (who : Client) : Prop :=
  ∀ b ∈ ch.banlist ++ ch.exceptlist, ∀ p,
    cidrParts b.banstr (userHost who.name who.username who.sockhost) = some p →
      matchMask p.mask p.address = true → p.Written

theorem writtenBits_eq {v6 : Bool} {src : Bytes} (h : (rbInetPton v6 src).isSome) {i : Nat} (hi : i < addrBits v6)
    (storage storage' : Nat → Bool) : writtenBits v6 src storage i = writtenBits v6 src storage' i := by
  obtain ⟨bytes, hbytes⟩ := Option.isSome_iff_exists.mp h
  unfold writtenBits
  rw [hbytes]
  exact (if_pos hi).trans (if_pos hi).symm

/-- Where all that is compared has been written, the verdict is about the texts. -/
theorem matchCidr_written {cfg cfg' : Config} {s1 s2 s2' : Bytes}
    (hparts : ∀ p, cidrParts s1 s2 = some p → ∃ address, lower address = lower p.address ∧
      cidrParts s1 s2' = some { p with address := address })
    (hnone : cidrParts s1 s2 = none → cidrParts s1 s2' = none)
    (h : ∀ p, cidrParts s1 s2 = some p → matchMask p.mask p.address = true → p.Written) :
    matchCidr cfg' s1 s2' = matchCidr cfg s1 s2 := by
  unfold matchCidr
  cases hp : cidrParts s1 s2 with
  | none => rw [hnone hp]
  | some p =>
    obtain ⟨address, hlow, hp'⟩ := hparts p hp
    rw [hp']
    dsimp only
    rw [matchMask_congr rfl hlow]
    cases hmatch : matchMask p.mask p.address with
    | false => rw [Bool.and_false, Bool.and_false]
    | true =>
      rw [Bool.and_true, Bool.and_true]
      obtain ⟨hip, hmask, hpos, hle⟩ := h p hp hmatch
      have hbits : (p.cidrlen % 2 ^ 32).toNat ≤ addrBits p.v6 := by
        have : (addrBits p.v6 : Int) ≤ 128 := by unfold addrBits; split <;> decide
        omega
      rw [Bool.eq_iff_iff, Patricia.compWithMask_iff, Patricia.compWithMask_iff]
      refine forall_congr' fun i => forall_congr' fun hi => ?_
      show writtenBits p.v6 p.ip _ i = writtenBits p.v6 p.ipmask _ i ↔ _
      rw [writtenBits_eq hip (hi.trans_le hbits) _ (cfg.storage s1 s2 false),
        writtenBits_eq hmask (hi.trans_le hbits) _ (cfg.storage s1 s2 true)]

theorem validNick_facts {nick : Bytes} (h : validNick nick = true) :
    NoNul nick ∧ (64 : UInt8) ∉ nick := by
  unfold validNick at h
  rw [Bool.and_eq_true, List.all_eq_true] at h
  constructor
  · exact fun hmem => absurd (h.2 0 hmem) (by decide)
  · exact fun hmem => absurd (h.2 64 hmem) (by decide)

theorem isBanned_of_covers {cfg cfg' : Config} {ch : Channel} {who who' : Client} (hmy : who'.myClient = who.myClient)
    (hexcept : cfg'.useExcept = cfg.useExcept)
    (h : ∀ b ∈ ch.banlist ++ ch.exceptlist, b.covers cfg' who' = b.covers cfg who) :
    isBanned cfg' ch who' = isBanned cfg ch who := by
  have hany : ∀ l ⊆ ch.banlist ++ ch.exceptlist, (l.any fun b => b.covers cfg' who') = l.any fun b => b.covers cfg who := by
    intro l hl
    rw [Bool.eq_iff_iff, List.any_eq_true, List.any_eq_true]
    exact exists_congr fun b => and_congr_right fun hb => by rw [h b (hl hb)]
  unfold isBanned
  rw [hmy, hexcept, hany _ (List.subset_append_left _ _), hany _ (List.subset_append_right _ _)]

/-- The verdict does not see what `match_cidr` finds by chance. -/
theorem isBanned_storage (cfg : Config) (storage : Bytes → Bytes → Bool → Nat → Bool) {ch : Channel} {who : Client}
    (h : ch.Settled who) : isBanned { cfg with storage := storage } ch who = isBanned cfg ch who := by
  refine isBanned_of_covers rfl rfl fun b hb => ?_
  have hcidr : matchCidr { cfg with storage := storage } b.banstr (userHost who.name who.username who.sockhost)
      = matchCidr cfg b.banstr (userHost who.name who.username who.sockhost) :=
    matchCidr_written (fun p hp => ⟨p.address, rfl, hp⟩) id (h b hb)
  simp only [Ban.covers, hcidr]

/-- The parts of a client whose nick has changed in case. -/
theorem cidrParts_userHost {mask user host nick nick' : Bytes} (ha : (64 : UInt8) ∉ nick) (ha' : (64 : UInt8) ∉ nick')
    (h : lower nick = lower nick') {p : CidrParts} (hp : cidrParts mask (userHost nick user host) = some p) :
    ∃ address, lower address = lower p.address ∧
      cidrParts mask (userHost nick' user host) = some { p with address := address } := by
  unfold userHost at hp ⊢
  rw [List.append_assoc] at hp ⊢
  exact cidrParts_nick ha ha' h hp

/-- The verdict does not see the case of the nick. -/
theorem isBanned_nick {cfg : Config} {ch : Channel} {cl : Client} {nick : Bytes}
    (hname : validNick cl.name = true) (hnick : validNick nick = true)
    (h : irccmp cl.name nick = 0) (hs : ch.Settled cl) :
    isBanned cfg ch { cl with name := nick } = isBanned cfg ch cl := by
  obtain ⟨hn, ha⟩ := validNick_facts hname
  obtain ⟨hn', ha'⟩ := validNick_facts hnick
  have hlow := lower_eq_of_irccmp hn hn' h
  refine isBanned_of_covers rfl rfl fun b hb => ?_
  have hmatch : ∀ host, matchMask b.banstr (userHost nick cl.username host)
      = matchMask b.banstr (userHost cl.name cl.username host) := fun host =>
    matchMask_congr rfl (by simp only [userHost, lower_append, hlow])
  have hcidr : matchCidr cfg b.banstr (userHost nick cl.username cl.sockhost)
      = matchCidr cfg b.banstr (userHost cl.name cl.username cl.sockhost) := by
    refine matchCidr_written (fun p hp => cidrParts_userHost ha ha' hlow hp) (fun hnone => ?_) (hs b hb)
    cases hp : cidrParts b.banstr (userHost nick cl.username cl.sockhost) with
    | none => rfl
    | some p =>
      obtain ⟨address, -, hp'⟩ := cidrParts_userHost ha' ha hlow.symm hp
      rw [hnone] at hp'
      cases hp'
  simp only [Ban.covers, hmatch, hcidr]

theorem Channel.Settled.of_nick {ch : Channel} {cl : Client} {nick : Bytes} (hname : validNick cl.name = true)
    (hnick : validNick nick = true) (h : irccmp cl.name nick = 0) (hs : ch.Settled { cl with name := nick }) :
    ch.Settled cl := by
  obtain ⟨hn, ha⟩ := validNick_facts hname
  obtain ⟨hn', ha'⟩ := validNick_facts hnick
  intro b hb p hp hmatch
  obtain ⟨address, hlow, hp'⟩ := cidrParts_userHost ha ha' (lower_eq_of_irccmp hn hn' h) hp
  exact hs b hb { p with address := address } hp' (by rw [← hmatch]; exact matchMask_congr rfl hlow)

-- ============================================================================
-- The invariant
-- ============================================================================

/-- The verdict of a membership made for the lists after `k` events. -/
structure VerdictFor (cfg : Config) (client : Nat → Option Client) (ch : Channel) (m : Membership)
    (k : Nat) : Prop where
  le : k ≤ ch.history.length
  serial : m.banSerial = UInt32.ofNat k
  right : k = ch.history.length → ∀ who, client m.clientP = some who → who.myClient = true → ch.Settled who →
    (m.canSendBanned = true ↔ isBanned cfg ch who = .banned)

/-- The serial counts the events, and the verdicts that are up to date are right. -/
structure CacheOk (cfg : Config) (client : Nat → Option Client) (ch : Channel) : Prop where
  serial : ch.banSerial = UInt32.ofNat ch.history.length
  fresh : ch.history = [] → ch.banlist = [] ∧ ch.exceptlist = []
  verdict : ∀ m ∈ ch.members, ∃ k, VerdictFor cfg client ch m k

theorem cacheOk_new (cfg : Config) (client : Nat → Option Client) (s : Bytes) (now : Int) :
    CacheOk cfg client (allocateChannel s now) :=
  ⟨rfl, fun _ => ⟨rfl, rfl⟩, fun _ hm => absurd hm List.not_mem_nil⟩

section Cache

variable {cfg : Config} {client : Nat → Option Client} {ch ch' : Channel}

theorem isBanned_congr (hb : ch'.banlist = ch.banlist) (he : ch'.exceptlist = ch.exceptlist)
    (who : Client) : isBanned cfg ch' who = isBanned cfg ch who := by
  unfold isBanned
  rw [hb, he]

theorem isBanned_of_empty (hb : ch.banlist = []) (who : Client) :
    isBanned cfg ch who ≠ .banned := by
  unfold isBanned
  rw [hb]
  split
  · exact fun h => by cases h
  · exact fun h => by cases h

/-- A verdict is about the lists and the client, whatever else changes. -/
theorem VerdictFor.congr {m m' : Membership} {k : Nat} (h : VerdictFor cfg client ch m k)
    (hh : ch'.history = ch.history) (hb : ch'.banlist = ch.banlist)
    (he : ch'.exceptlist = ch.exceptlist) (hc : m'.clientP = m.clientP)
    (hser : m'.banSerial = m.banSerial) (hban : m'.canSendBanned = m.canSendBanned) :
    VerdictFor cfg client ch' m' k := by
  refine ⟨by rw [hh]; exact h.le, by rw [hser]; exact h.serial, fun hlen who hwho hmy hs => ?_⟩
  rw [hban, isBanned_congr hb he]
  exact h.right (by rw [← hh]; exact hlen) who (hc ▸ hwho) hmy (by rwa [Channel.Settled, ← hb, ← he])

/-- A change that leaves the lists alone, and every membership with a verdict. -/
theorem CacheOk.of_members (h : CacheOk cfg client ch) (hs : ch'.banSerial = ch.banSerial)
    (hh : ch'.history = ch.history) (hb : ch'.banlist = ch.banlist)
    (he : ch'.exceptlist = ch.exceptlist)
    (hm : ∀ m ∈ ch'.members, ∃ k, VerdictFor cfg client ch m k) : CacheOk cfg client ch' := by
  refine ⟨by rw [hs, hh, h.serial], fun hnil => ?_, fun m hmem => ?_⟩
  · rw [hb, he]
    exact h.fresh (hh ▸ hnil)
  · obtain ⟨k, hk⟩ := hm m hmem
    exact ⟨k, hk.congr hh hb he rfl rfl rfl⟩

/-- An event on the lists makes every verdict out of date. -/
theorem CacheOk.of_event (h : CacheOk cfg client ch) {e : ListEvent}
    (hs : ch'.banSerial = ch.banSerial + 1) (hh : ch'.history = e :: ch.history)
    (hm : ch'.members = ch.members) : CacheOk cfg client ch' := by
  have hlen : ch'.history.length = ch.history.length + 1 := by rw [hh, List.length_cons]
  refine ⟨?_, fun hnil => ?_, fun m hmem => ?_⟩
  · rw [hs, hlen, h.serial, UInt32.ofNat_add]
    rfl
  · rw [hh] at hnil
    cases hnil
  · obtain ⟨k, hk⟩ := h.verdict m (hm ▸ hmem)
    have hle := hk.le
    exact ⟨k, by omega, hk.serial, fun heq => by omega⟩

/-- A verdict that was dropped, or never made, is right while nothing was listed. -/
theorem CacheOk.unset (h : CacheOk cfg client ch) {client' : Nat → Option Client} {m : Membership}
    (hs : m.banSerial = 0) (hf : m.canSendBanned = false) : VerdictFor cfg client' ch m 0 := by
  refine ⟨Nat.zero_le _, hs, fun hlen who _ _ _ => ?_⟩
  have hempty := h.fresh (List.length_eq_zero_iff.mp hlen.symm)
  rw [hf]
  exact ⟨fun hfalse => absurd hfalse Bool.false_ne_true,
    fun hban => absurd hban (isBanned_of_empty hempty.1 who)⟩

theorem forgetVerdict_clear (m : Membership) : (forgetVerdict m).canSendBanned = false := by
  have hall : ∀ x : Fin 256, (UInt8.ofFin x &&& ~~~chflBanned) &&& chflBanned = 0 := by
    decide +kernel
  have hflags : (m.flags &&& ~~~chflBanned) &&& chflBanned = 0 := hall m.flags.toFin
  unfold forgetVerdict Membership.canSendBanned
  rw [hflags]
  rfl

theorem cacheVerdict_right {who : Client} (hmy : who.myClient = true) (m : Membership) :
    (cacheVerdict cfg ch who m).banSerial = ch.banSerial ∧
    ((cacheVerdict cfg ch who m).canSendBanned = true ↔ isBanned cfg ch who = .banned) := by
  have hset : ∀ x : Fin 256, (UInt8.ofFin x ||| chflBanned) &&& chflBanned ≠ 0 := by
    decide +kernel
  have hflags : (m.flags ||| chflBanned) &&& chflBanned ≠ 0 := hset m.flags.toFin
  unfold cacheVerdict
  rw [hmy, Bool.not_true, if_neg Bool.false_ne_true]
  by_cases hban : isBanned cfg ch who = .banned
  · rw [if_pos hban]
    exact ⟨rfl, fun _ => hban, fun _ => by simpa [Membership.canSendBanned] using hflags⟩
  · rw [if_neg hban]
    have hclear := forgetVerdict_clear m
    refine ⟨rfl, fun h => ?_, fun h => absurd h hban⟩
    exact absurd (h.symm.trans hclear) (by decide)

theorem mem_modifyMember {c : Nat} {f : Membership → Membership} {m' : Membership}
    (h : m' ∈ (ch.modifyMember c f).members) :
    ∃ m ∈ ch.members, (m.clientP = c ∧ m' = f m) ∨ (m.clientP ≠ c ∧ m' = m) := by
  obtain ⟨m, hm, rfl⟩ := List.mem_map.mp h
  refine ⟨m, hm, ?_⟩
  by_cases hc : m.clientP = c
  · exact Or.inl ⟨hc, if_pos hc⟩
  · exact Or.inr ⟨hc, if_neg hc⟩

/-- Every update keeps the verdicts right. -/
theorem Update.cacheOk {ok : Client → Bytes → Prop} (h : Update cfg client ok ch ch')
    (hc : CacheOk cfg client ch) : CacheOk cfg client ch' := by
  cases h with
  | mode => exact hc.of_members rfl rfl rfl rfl hc.verdict
  | stamp => exact hc.of_members rfl rfl rfl rfl hc.verdict
  | status f hf =>
    refine hc.of_members rfl rfl rfl rfl fun m' hm' => ?_
    obtain ⟨m, hm, rfl⟩ := List.mem_map.mp hm'
    obtain ⟨k, hk⟩ := hc.verdict m hm
    obtain ⟨hclient, hser, hban⟩ := hf m
    exact ⟨k, hk.congr rfl rfl rfl hclient hser hban⟩
  | enter c fl hmem hfl =>
    refine hc.of_members rfl rfl rfl rfl fun m hm => ?_
    rcases List.mem_cons.mp hm with rfl | hm
    · exact ⟨0, hc.unset rfl (by simp [Membership.canSendBanned, hfl])⟩
    · exact hc.verdict m hm
  | leave c =>
    exact hc.of_members rfl rfl rfl rfl fun m hm => hc.verdict m (List.mem_of_mem_filter hm)
  | add source mask k now hok hnul hlen h =>
    obtain ⟨-, rfl⟩ := addId_eq_some h
    cases k with
    | ban => exact hc.of_event rfl rfl rfl
    | exception => exact hc.of_event rfl rfl rfl
    | invex => exact hc.of_members rfl rfl rfl rfl hc.verdict
  | del mask k h =>
    obtain rfl := delId_eq_some h
    cases k with
    | ban => exact hc.of_event rfl rfl rfl
    | exception => exact hc.of_event rfl rfl rfl
    | invex => exact hc.of_members rfl rfl rfl rfl hc.verdict
  | reset => exact hc.of_event rfl rfl rfl
  | cache c who hwho =>
    refine hc.of_members rfl rfl rfl rfl fun m' hm' => ?_
    obtain ⟨m, hm, ⟨hmc, rfl⟩ | ⟨-, rfl⟩⟩ := mem_modifyMember hm'
    · by_cases hmy : who.myClient = true
      · -- the verdict has just been made
        obtain ⟨hser, hright⟩ := @cacheVerdict_right cfg ch who hmy m
        refine ⟨ch.history.length, Nat.le_refl _, hser.trans hc.serial, fun _ who' hwho' _ _ => ?_⟩
        have hclient : (cacheVerdict cfg ch who m).clientP = c := by
          rw [← hmc]
          unfold cacheVerdict
          repeat' split
          all_goals rfl
        rw [hclient, hwho] at hwho'
        rw [← Option.some.inj hwho']
        exact hright
      · have hstay : cacheVerdict cfg ch who m = m := by
          unfold cacheVerdict
          rw [if_pos (by simpa using hmy)]
        rw [hstay]
        exact hc.verdict m hm
    · exact hc.verdict m' hm
  | forget c =>
    refine hc.of_members rfl rfl rfl rfl fun m' hm' => ?_
    obtain ⟨m, hm, ⟨-, rfl⟩ | ⟨-, rfl⟩⟩ := mem_modifyMember hm'
    · exact ⟨0, hc.unset rfl (forgetVerdict_clear m)⟩
    · exact hc.verdict m' hm

/-- Clients may go, and those who come are not members yet. -/
theorem CacheOk.mono (h : CacheOk cfg client ch) {client' : Nat → Option Client}
    (hc : ∀ m ∈ ch.members, ∀ who, client' m.clientP = some who → client m.clientP = some who) :
    CacheOk cfg client' ch := by
  refine ⟨h.serial, h.fresh, fun m hm => ?_⟩
  obtain ⟨k, hk⟩ := h.verdict m hm
  exact ⟨k, hk.le, hk.serial, fun hlen who hwho => hk.right hlen who (hc m hm who hwho)⟩

/-- What is right is right whatever `match_cidr` finds by chance. -/
theorem CacheOk.storage (h : CacheOk cfg client ch) (storage : Bytes → Bytes → Bool → Nat → Bool) :
    CacheOk { cfg with storage := storage } client ch := by
  refine ⟨h.serial, h.fresh, fun m hm => ?_⟩
  obtain ⟨k, hk⟩ := h.verdict m hm
  refine ⟨k, hk.le, hk.serial, fun hlen who hwho hmy hs => ?_⟩
  rw [isBanned_storage cfg storage hs]
  exact hk.right hlen who hwho hmy hs

end Cache

-- ============================================================================
-- The server
-- ============================================================================

/-- Addresses are those of clients, users have nicks, and the verdicts are
    right. -/
structure ServerOk (cfg : Config) (srv : Server) : Prop where
  addresses : ∀ x ∈ srv.clients, x.1 < srv.nextClient
  nicks : ∀ x ∈ srv.clients, x.2.isClient = true → validNick x.2.name = true
  members : ∀ p, ∀ m ∈ (srv.table.chan p).members, m.clientP < srv.nextClient
  cache : ∀ p, CacheOk cfg srv.client (srv.table.chan p)

section Server

variable {cfg : Config} {srv srv' : Server}

theorem Server.client_mem {c : Nat} {cl : Client} (h : srv.client c = some cl) :
    (c, cl) ∈ srv.clients := by
  unfold Server.client at h
  obtain ⟨x, hx, rfl⟩ := Option.map_eq_some_iff.mp h
  have hmem := List.mem_of_find?_eq_some hx
  have hc : x.1 = c := by simpa using List.find?_some hx
  rwa [← hc]

theorem Update.members_lt {client : Nat → Option Client} {ok : Client → Bytes → Prop}
    {ch ch' : Channel} {n : Nat} (hn : ∀ c, (client c).isSome → c < n)
    (h : Update cfg client ok ch ch') (hm : ∀ m ∈ ch.members, m.clientP < n) :
    ∀ m ∈ ch'.members, m.clientP < n := by
  have hmodify : ∀ c f, (∀ m : Membership, (f m).clientP = m.clientP) →
      ∀ m ∈ (ch.modifyMember c f).members, m.clientP < n := by
    intro c f hf m' hm'
    obtain ⟨m, hmem, ⟨-, rfl⟩ | ⟨-, rfl⟩⟩ := mem_modifyMember hm'
    · rw [hf]
      exact hm m hmem
    · exact hm m' hmem
  cases h with
  | mode => exact hm
  | stamp => exact hm
  | status f hf =>
    intro m' hm'
    obtain ⟨m, hmem, rfl⟩ := List.mem_map.mp hm'
    rw [(hf m).1]
    exact hm m hmem
  | enter c fl hc hfl hcl =>
    intro m hmem
    rcases List.mem_cons.mp hmem with rfl | hmem
    · exact hn c hcl
    · exact hm m hmem
  | leave c => exact fun m hmem => hm m (List.mem_of_mem_filter hmem)
  | add source mask k now hok hnul hlen h =>
    obtain ⟨-, rfl⟩ := addId_eq_some h
    rw [members_setList_bumpFor]
    exact hm
  | del mask k h =>
    rw [delId_eq_some h, members_setList_bumpFor]
    exact hm
  | reset => exact hm
  | cache c who hwho =>
    refine hmodify c _ fun m => ?_
    unfold cacheVerdict
    repeat' split
    all_goals rfl
  | forget c => exact hmodify c _ fun _ => rfl

theorem Server.client_introduce {cl : Client} {c : Nat}
    (hc : srv'.clients = (srv.nextClient, cl) :: srv.clients) (hne : c ≠ srv.nextClient) :
    srv'.client c = srv.client c := by
  unfold Server.client
  rw [hc, List.find?_cons_of_neg (by simpa using Ne.symm hne)]

theorem Server.client_exit {d c : Nat} {who : Client}
    (hc : srv'.clients = srv.clients.filter fun x => x.1 != d) (h : srv'.client c = some who) :
    srv.client c = some who := by
  have hd : c ≠ d := by
    have hmem := Server.client_mem h
    rw [hc] at hmem
    simpa using List.of_mem_filter hmem
  unfold Server.client at h ⊢
  rw [hc, List.find?_filter] at h
  rw [← h]
  congr 2
  funext x
  by_cases hx : x.1 = c
  · simp [hx, hd]
  · simp [hx]

theorem Server.client_setClient {c d : Nat} {cl : Client} (hne : d ≠ c) :
    (srv.setClient c cl).client d = srv.client d := by
  unfold Server.setClient Server.client
  induction srv.clients with
  | nil => rfl
  | cons x l ih =>
    rw [List.map_cons]
    by_cases hx : x.1 = c
    · rw [if_pos hx, List.find?_cons_of_neg (by simpa using Ne.symm hne),
        List.find?_cons_of_neg (by rw [hx]; simpa using Ne.symm hne)]
      exact ih
    · rw [if_neg hx]
      by_cases hxd : x.1 = d
      · rw [List.find?_cons_of_pos (by simpa using hxd), List.find?_cons_of_pos (by simpa using hxd)]
      · rw [List.find?_cons_of_neg (by simpa using hxd), List.find?_cons_of_neg (by simpa using hxd)]
        exact ih

theorem Server.client_setClient_self {c : Nat} {cl who : Client}
    (h : (srv.setClient c cl).client c = some who) : who = cl := by
  have hmem := Server.client_mem h
  unfold Server.setClient at hmem
  obtain ⟨x, -, heq⟩ := List.mem_map.mp hmem
  split at heq
  · exact (Prod.mk.inj heq).2.symm
  · rename_i hne
    exact absurd (by rw [heq]) hne

/-- A nick change keeps the verdicts of the user right: they are dropped, or the
    nick only changed in case. -/
theorem changeNick_cacheOk {c : Nat} {cl : Client} {nick : Bytes} (hok : ServerOk cfg srv)
    (hcl : srv.client c = some cl) (huser : cl.isClient = true) (hnick : validNick nick = true) :
    ∀ p, CacheOk cfg (changeNick srv c cl nick).client ((changeNick srv c cl nick).table.chan p) := by
  intro p
  have hname : validNick cl.name = true := hok.nicks _ (Server.client_mem hcl) huser
  have hc := hok.cache p
  have hclient : (changeNick srv c cl nick).client
      = (srv.setClient c { cl with name := nick }).client := rfl
  -- a verdict about another client stays
  have hother : ∀ {m : Membership}, m ∈ (srv.table.chan p).members → m.clientP ≠ c →
      ∃ k, VerdictFor cfg (changeNick srv c cl nick).client (srv.table.chan p) m k := by
    intro m hm hne
    obtain ⟨k, hk⟩ := hc.verdict m hm
    refine ⟨k, hk.le, hk.serial, fun hlen who hwho => hk.right hlen who ?_⟩
    rwa [hclient, Server.client_setClient hne] at hwho
  unfold changeNick
  by_cases hdrop : (cl.myClient && irccmp cl.name nick != 0) = true
  · simp only [hdrop, if_true]
    have hforget : Update cfg srv.client anyMask (srv.table.chan p)
        ((srv.table.chan p).modifyMember c forgetVerdict) := .forget c
    have hstep := hforget.cacheOk hc
    refine ⟨hstep.serial, hstep.fresh, fun m' hm' => ?_⟩
    obtain ⟨m, hm, ⟨-, rfl⟩ | ⟨hne, rfl⟩⟩ := mem_modifyMember hm'
    · exact ⟨0, hstep.unset rfl (forgetVerdict_clear m)⟩
    · obtain ⟨k, hk⟩ := hother hm hne
      exact ⟨k, hk.congr rfl rfl rfl rfl rfl rfl⟩
  · simp only [hdrop]
    refine ⟨hc.serial, hc.fresh, fun m hm => ?_⟩
    by_cases hmc : m.clientP = c
    · obtain ⟨k, hk⟩ := hc.verdict m hm
      refine ⟨k, hk.le, hk.serial, fun hlen who hwho hmy hs => ?_⟩
      rw [hmc] at hwho
      obtain rfl := Server.client_setClient_self hwho
      have hsame : irccmp cl.name nick = 0 := by
        have hmy' : cl.myClient = true := hmy
        simpa [hmy'] using hdrop
      have hold : (srv.table.chan p).Settled cl := .of_nick hname hnick hsame hs
      show _ ↔ isBanned cfg (srv.table.chan p) { cl with name := nick } = _
      rw [isBanned_nick hname hnick hsame hold]
      exact hk.right hlen cl (hmc ▸ hcl) hmy hold
    · exact hother hm hmc

theorem ServerOk.step {a : Action} (hok : ServerOk cfg srv) (h : srv.step cfg a = some srv') :
    ServerOk cfg srv' := by
  obtain ⟨hch, hclients⟩ := step_cases (masksOk_anyMask cfg srv a) h
  have hbound : ∀ c, (srv.client c).isSome → c < srv.nextClient := by
    intro c hc
    obtain ⟨cl, hcl⟩ := Option.isSome_iff_exists.mp hc
    exact hok.addresses _ (Server.client_mem hcl)
  have hmembers : ∀ p, ∀ m ∈ (srv'.table.chan p).members, m.clientP < srv.nextClient :=
    hch.forall_chan (P := fun ch => ∀ m ∈ ch.members, m.clientP < srv.nextClient)
      (fun _ _ _ _ hm => absurd hm List.not_mem_nil) (fun _ _ hu => hu.members_lt hbound) hok.members
  have hcache : ∀ p, CacheOk cfg srv.client (srv'.table.chan p) :=
    hch.forall_chan (P := CacheOk cfg srv.client) (fun s now _ => cacheOk_new cfg _ s now)
      (fun _ _ hu => hu.cacheOk) hok.cache
  cases hclients with
  | same hc hn =>
    have hclient : srv'.client = srv.client := by
      funext c
      rw [Server.client, Server.client, hc]
    refine ⟨by rw [hc, hn]; exact hok.addresses, by rw [hc]; exact hok.nicks,
      by rw [hn]; exact hmembers, by rw [hclient]; exact hcache⟩
  | introduce cl hwf hc hn =>
    refine ⟨fun x hx => ?_, fun x hx hu => ?_, fun p m hm => ?_, fun p => ?_⟩
    · rw [hc] at hx
      rw [hn]
      rcases List.mem_cons.mp hx with rfl | hx
      · exact Nat.lt_succ_self _
      · exact Nat.lt_succ_of_lt (hok.addresses x hx)
    · rw [hc] at hx
      rcases List.mem_cons.mp hx with rfl | hx
      · rw [Client.wellFormed, Bool.or_eq_true] at hwf
        rcases hwf with hserver | hnick
        · simp [Client.isClient, hserver] at hu
        · exact hnick
      · exact hok.nicks x hx hu
    · rw [hn]
      exact Nat.lt_succ_of_lt (hmembers p m hm)
    · refine (hcache p).mono fun m hm who hwho => ?_
      rwa [Server.client_introduce hc (Nat.ne_of_lt (hmembers p m hm))] at hwho
  | exit c hc hn =>
    refine ⟨fun x hx => ?_, fun x hx => ?_, by rw [hn]; exact hmembers, fun p => ?_⟩
    · rw [hc] at hx
      rw [hn]
      exact hok.addresses x (List.mem_of_mem_filter hx)
    · rw [hc] at hx
      exact hok.nicks x (List.mem_of_mem_filter hx)
    · exact (hcache p).mono fun m _ who hwho => Server.client_exit hc hwho
  | rename c cl nick hcl huser hnick h =>
    subst h
    refine ⟨fun x hx => ?_, fun x hx hu => ?_, hmembers, changeNick_cacheOk hok hcl huser hnick⟩
    · obtain ⟨y, hy, rfl⟩ := List.mem_map.mp hx
      by_cases hyc : y.1 = c
      · rw [if_pos hyc]
        exact hok.addresses (c, cl) (Server.client_mem hcl)
      · rw [if_neg hyc]
        exact hok.addresses y hy
    · obtain ⟨y, hy, rfl⟩ := List.mem_map.mp hx
      by_cases hyc : y.1 = c
      · rw [if_pos hyc]
        exact hnick
      · rw [if_neg hyc] at hu ⊢
        exact hok.nicks y hy hu

/-- A step, with what `match_cidr` finds by chance in the meantime. -/
def Server.stepOver (cfg : Config) (srv : Server) (a : (Bytes → Bytes → Bool → Nat → Bool) × Action) : Option Server :=
  srv.step { cfg with storage := a.1 } a.2

theorem ServerOk.storage (h : ServerOk cfg srv) (storage : Bytes → Bytes → Bool → Nat → Bool) :
    ServerOk { cfg with storage := storage } srv :=
  ⟨h.addresses, h.nicks, h.members, fun p => (h.cache p).storage storage⟩

theorem serverOk_of_run (h : Reach (Server.stepOver cfg) anyStep Server.start srv) : ServerOk cfg srv := by
  refine h.invariant (P := ServerOk cfg) ?_ fun _ a _ hs _ hstep => ((hs.storage a.1).step hstep).storage cfg.storage
  exact ⟨fun _ hx => absurd hx List.not_mem_nil, fun _ hx => absurd hx List.not_mem_nil,
    fun _ _ hm => absurd hm List.not_mem_nil, fun _ => cacheOk_new ..⟩

/-- The same may be found in all steps. -/
theorem reach_stepOver (h : Reach (Server.step cfg) anyStep Server.start srv) :
    Reach (Server.stepOver cfg) anyStep Server.start srv :=
  h.invariant (P := Reach (Server.stepOver cfg) anyStep Server.start) .init fun _ a _ hs _ hstep =>
    hs.next (a := (cfg.storage, a)) trivial hstep

end Server

-- ============================================================================
-- Coherence
-- ============================================================================

/-- A verdict about one of these clients that is up to date is that of `is_banned`, and `can_send`
    answers as if it never used one. -/
structure Coherent (cfg : Config) (client : Nat → Option Client) (ch : Channel) (about : Client → Prop) : Prop where
  verdict : ∀ m ∈ ch.members, ∀ who, client m.clientP = some who → who.myClient = true → about who →
    m.banSerial = ch.banSerial → (m.canSendBanned = true ↔ isBanned cfg ch who = .banned)
  answer : ∀ c who, client c = some who → about who → (canSend cfg ch c who).2 = canSendUncached cfg ch c who

/-- Right verdicts make `can_send` right. -/
theorem canSend_answer {cfg : Config} {ch : Channel} {c : Nat} {who : Client}
    (h : ∀ m ∈ ch.members, m.clientP = c → who.myClient = true → m.banSerial = ch.banSerial →
      (m.canSendBanned = true ↔ isBanned cfg ch who = .banned)) :
    (canSend cfg ch c who).2 = canSendUncached cfg ch c who := by
  unfold canSend canSendUncached
  split
  · rfl
  · split
    · rfl
    · cases hm : ch.findMembership c with
      | none =>
        dsimp only
        split
        · rfl
        · rfl
      | some m =>
        dsimp only
        split
        · rfl
        · split
          · rfl
          · split
            · rename_i hquiet
              rw [Bool.and_eq_true] at hquiet
              have hc : m.clientP = c := by simpa using List.find?_some hm
              by_cases hser : m.banSerial = ch.banSerial
              · have hright := h m (List.mem_of_find?_eq_some hm) hc hquiet.2 hser
                rw [if_pos hser]
                exact if_congr hright rfl rfl
              · rw [if_neg hser]
            · rfl

/-- As long as the serial of a channel has not come round, its verdicts are coherent, about the
    clients for whom `match_cidr` compares addresses only. -/
theorem coherent_of_run {cfg : Config} {srv : Server}
    (h : Reach (Server.stepOver cfg) anyStep Server.start srv) (p : Nat)
    (hlen : (srv.table.chan p).history.length < 2 ^ 32) (storage : Bytes → Bytes → Bool → Nat → Bool) :
    Coherent { cfg with storage := storage } srv.client (srv.table.chan p) (srv.table.chan p).Settled := by
  have hc := ((serverOk_of_run h).storage storage).cache p
  have hverdict : ∀ m ∈ (srv.table.chan p).members, ∀ who, srv.client m.clientP = some who →
      who.myClient = true → (srv.table.chan p).Settled who → m.banSerial = (srv.table.chan p).banSerial →
      (m.canSendBanned = true ↔ isBanned { cfg with storage := storage } (srv.table.chan p) who = .banned) := by
    intro m hm who hwho hmy hs hser
    obtain ⟨k, hk⟩ := hc.verdict m hm
    have hle := hk.le
    have hnat : (UInt32.ofNat k).toNat = (UInt32.ofNat (srv.table.chan p).history.length).toNat := by
      rw [← hk.serial, hser, hc.serial]
    rw [UInt32.toNat_ofNat', UInt32.toNat_ofNat', Nat.mod_eq_of_lt (by omega),
      Nat.mod_eq_of_lt hlen] at hnat
    exact hk.right hnat who hwho hmy hs
  exact ⟨hverdict, fun c who hwho hs => canSend_answer fun m hm hmc hmy hser =>
    hverdict m hm who (hmc ▸ hwho) hmy hs hser⟩

-- ============================================================================
-- Resets of empty lists
-- ============================================================================

/-- `SJOIN ts #a + :bob`. -/
def bobRejoin (ts : Bytes) : Action := .sjoin ⟨1, hub.id, ts, [35, 97], [43], [bob.id]⟩ 0

/-- A channel `#a` of time stamp 2 ^ 33 + 1 where `*!*@*` is banned, and a local
    user who tried to send. -/
def bannedServer : Server :=
  [Action.introduce bob, .introduce alice, .introduce hub,
    bobRejoin [56, 53, 56, 57, 57, 51, 52, 53, 57, 51], .join 1 [35, 97] [] true false 0,
    .bmask 2 [48] [35, 97] [98] [42, 33, 42, 64, 42] 0, .send 1 0].foldl
    (Reach.perform (Server.step plainConfig)) Server.start

theorem coherent_of_bannedServer :
    (∀ storage, Coherent { plainConfig with storage := storage } bannedServer.client (bannedServer.table.chan 0)
      (bannedServer.table.chan 0).Settled) ∧
    (bannedServer.table.chan 0).members = [⟨1, chflBanned, 1⟩, ⟨0, 0, 0⟩] ∧
    (bannedServer.table.chan 0).history = [.added] :=
  ⟨coherent_of_run (reach_stepOver (Reach.performed_all _ .init)) 0 (by decide), by decide,
    by decide⟩

/-- The channel after the lists were emptied and then `n` times reset again.  The
    verdict of the local user is the one from before. -/
def idleChannel (n : Nat) : Channel where
  chname := [35, 97]
  mode := Mode.none
  members := [⟨0, 0, 0⟩, ⟨1, chflBanned, 1⟩]
  banlist := []
  exceptlist := []
  invexlist := []
  banSerial := UInt32.ofNat (n + 2)
  channelts := 2 ^ 33 - n
  history := List.replicate n (.reset false) ++ [.reset true, .added]

/-- The server after `n` resets. -/
structure Idle (srv : Server) (n : Nat) : Prop where
  clients : srv.clients = [(2, hub), (1, alice), (0, bob)]
  listed : srv.table.globalChannelList = [0]
  bucket : srv.table.channelTable (hashChannel [35, 97]) = [0]
  chan : srv.table.chan 0 = idleChannel n

/-- `bob` leaves and comes back with an earlier time stamp. -/
def comeBack (srv : Server) (ts : Bytes) : Server :=
  [Action.part 0 0, bobRejoin ts].foldl (Reach.perform (Server.step plainConfig)) srv

theorem idle_zero : Idle (comeBack bannedServer [56, 53, 56, 57, 57, 51, 52, 53, 57, 50]) 0 :=
  ⟨by decide, by decide, by decide, by decide⟩

/-- The channel while `bob` is away. -/
def aloneChannel (n : Nat) : Channel := { idleChannel n with members := [⟨1, chflBanned, 1⟩] }

theorem Idle.part {srv : Server} {n : Nat} (h : Idle srv n) :
    ∃ t, Reach.perform (Server.step plainConfig) srv (.part 0 0) = { srv with table := t } ∧
      t.globalChannelList = [0] ∧ t.channelTable (hashChannel [35, 97]) = [0] ∧
      t.chan 0 = aloneChannel n := by
  refine ⟨srv.table.setChan 0 (aloneChannel n), ?_, h.listed, h.bucket,
    Table.chan_setChan ..⟩
  simp [Reach.perform, Server.step, h.listed, h.chan, idleChannel, aloneChannel, Channel.isMember,
    Channel.findMembership, removeUserFromChannel]

/-- An earlier time stamp resets lists that are empty already. -/
theorem sjoinChannel_alone {srv : Server} {m : Sjoin} {n : Nat} (hn : n < 2 ^ 32)
    (hsource : m.sourceId = hub.id) (htarget : sjoinTarget srv m.link bob.id = some (0, 0)) :
    sjoinChannel srv m false (2 ^ 33 - n - 1) Mode.none bob.id (aloneChannel n)
      = (idleChannel (n + 1), 1) := by
  have hcompare : tsCompare false (aloneChannel n).channelts (2 ^ 33 - n - 1)
      = ⟨2 ^ 33 - n - 1, false, true⟩ := by
    have hold : (aloneChannel n).channelts = 2 ^ 33 - n := rfl
    unfold tsCompare
    rw [hold, if_neg Bool.false_ne_true, if_neg (by omega), if_neg (by omega), if_pos (by omega)]
  have husers : sjoinUsers [] bob.id = [bob.id] := rfl
  have hserial : UInt32.ofNat (n + 1 + 2) = (aloneChannel n).banSerial + 1 := by
    rw [Nat.add_right_comm, UInt32.ofNat_add]
    rfl
  have hstamp : (2 ^ 33 : Int) - ((n + 1 : Nat) : Int) = 2 ^ 33 - n - 1 := by omega
  unfold sjoinChannel
  simp only [hcompare, husers, List.foldl_cons, List.foldl_nil, sjoinUser, htarget, hsource]
  unfold idleChannel
  rw [hserial, hstamp]
  rfl

/-- Nothing is removed, but the serial goes up. -/
theorem Idle.next {srv : Server} {n : Nat} (h : Idle srv n) (hn : n < 2 ^ 32) :
    Idle (comeBack srv (fmtInt (2 ^ 33 - n - 1))) (n + 1) := by
  have hts : atol (fmtInt (2 ^ 33 - n - 1)) = 2 ^ 33 - n - 1 := atol_fmtInt (by omega)
  obtain ⟨t, hpart, hlisted, hbucket, hchan⟩ := h.part
  have hget : getOrCreateChannel t [35, 97] 0 = (t, some (0, false)) := by
    refine getOrCreateChannel_found (by decide) ?_ 0
    unfold Table.lookup
    rw [show lookupName [35, 97] = [35, 97] from rfl, hbucket]
    simp only [List.find?_cons, hchan]
    rfl
  have htarget : sjoinTarget { srv with table := t } 1 bob.id = some (0, 0) := by
    unfold sjoinTarget findClient Server.search
    rw [h.clients]
    rfl
  have hstep : Server.step plainConfig { srv with table := t } (bobRejoin (fmtInt (2 ^ 33 - n - 1)))
      = some { srv with table := t.setChan 0 (idleChannel (n + 1)) } := by
    have hwf : (⟨1, hub.id, fmtInt (2 ^ 33 - n - 1), [35, 97], [43], [bob.id]⟩ : Sjoin).wellFormed
      = true := rfl
    have hparse : sjoinParse ⟨1, hub.id, fmtInt (2 ^ 33 - n - 1), [35, 97], [43], [bob.id]⟩
        = some (Mode.none, bob.id) := rfl
    rw [bobRejoin, Server.step, if_pos hwf, msSjoin]
    simp only [hparse, hget, hts, hchan]
    rw [sjoinChannel_alone hn rfl htarget]
    simp
  have hback : comeBack srv (fmtInt (2 ^ 33 - n - 1))
      = { srv with table := t.setChan 0 (idleChannel (n + 1)) } := by
    unfold comeBack
    rw [List.foldl_cons, List.foldl_cons, List.foldl_nil, hpart, Reach.perform, hstep]
    rfl
  rw [hback]
  exact ⟨h.clients, hlisted, hbucket, Table.chan_setChan ..⟩

theorem idle_reached (n : Nat) (hn : n ≤ 2 ^ 32) :
    ∃ srv, Reach (Server.step plainConfig) anyStep Server.start srv ∧ Idle srv n := by
  induction n with
  | zero =>
    exact ⟨_, Reach.performed_all _ (Reach.performed_all _ .init), idle_zero⟩
  | succ n ih =>
    obtain ⟨srv, hreach, hidle⟩ := ih (Nat.le_of_succ_le hn)
    exact ⟨_, Reach.performed_all _ hreach, hidle.next hn⟩

theorem idleChannel_changes (n : Nat) :
    ((idleChannel n).history.filter (· ≠ .reset false)).length = 2 := by
  have hidle : (List.replicate n (ListEvent.reset false)).filter (· ≠ ListEvent.reset false) = [] := by
    rw [List.filter_replicate, if_neg (by decide)]
  rw [idleChannel, List.filter_append, hidle]
  rfl

-- ============================================================================
-- Masks that are no addresses
-- ============================================================================

/-- A channel `#a` where `*!*@foo/8` is banned, and a local user who tried to send. -/
def chanceServer : Server :=
  [Action.introduce bob, .introduce alice, .introduce hub,
    bobRejoin [56, 53, 56, 57, 57, 51, 52, 53, 57, 51], .join 1 [35, 97] [] true false 0,
    .bmask 2 [48] [35, 97] [98] [42, 33, 42, 64, 102, 111, 111, 47, 56] 0, .send 1 0].foldl
    (Reach.perform (Server.step plainConfig)) Server.start

/-- What the mask of `match_cidr` has by chance is set, and what the address has is not. -/
def maskSet : Bytes → Bytes → Bool → Nat → Bool := fun _ _ isMask _ => isMask

/-- `foo` is compared as it happens to be, with the address of the user or without. -/
theorem not_coherent_chanceServer :
    ¬ Coherent { plainConfig with storage := maskSet } chanceServer.client (chanceServer.table.chan 0) fun _ => True := by
  intro h
  have hmembers : (chanceServer.table.chan 0).members = [⟨1, chflBanned, 1⟩, ⟨0, 0, 0⟩] := by decide
  have hclient : chanceServer.client 1 = some alice := by decide
  have hverdict := h.verdict ⟨1, chflBanned, 1⟩ (by rw [hmembers]; exact List.mem_cons_self) alice hclient rfl trivial (by decide)
  exact absurd (hverdict.mp (by decide)) (by decide)

/-- The lists of a channel can change twice only while the serial comes round: the
    verdict from before the lists were emptied is up to date again.  And a verdict may be about
    nothing but chance. -/
theorem not_coherent_after_idle_resets :
    (¬ ∀ srv, Reach (Server.stepOver plainConfig) anyStep Server.start srv → ∀ p,
      ((srv.table.chan p).history.filter (· ≠ .reset false)).length < 2 ^ 32 →
      Coherent plainConfig srv.client (srv.table.chan p) (srv.table.chan p).Settled) ∧
    ¬ ∀ srv, Reach (Server.stepOver plainConfig) anyStep Server.start srv → ∀ p,
      (srv.table.chan p).history.length < 2 ^ 32 → ∀ storage,
      Coherent { plainConfig with storage := storage } srv.client (srv.table.chan p) fun _ => True := by
  constructor
  · intro h
    obtain ⟨n, hn⟩ : ∃ n : Nat, n + 2 = 2 ^ 32 + 1 := ⟨2 ^ 32 - 1, rfl⟩
    obtain ⟨srv, hreach, hidle⟩ := idle_reached n (by omega)
    have hcoherent := h srv (reach_stepOver hreach) 0
    rw [hidle.chan, idleChannel_changes] at hcoherent
    have halice : srv.client 1 = some alice := by
      rw [Server.client, hidle.clients]
      rfl
    have hserial : (1 : UInt32) = UInt32.ofNat (n + 2) := by
      rw [hn]
      decide
    have hsettled : (idleChannel n).Settled alice := fun _ hb => absurd hb List.not_mem_nil
    have hverdict := (hcoherent (by decide)).verdict ⟨1, chflBanned, 1⟩ (by simp [idleChannel]) alice
      halice rfl hsettled hserial
    exact isBanned_of_empty rfl alice (hverdict.mp rfl)
  · exact fun h => not_coherent_chanceServer
      (h chanceServer (reach_stepOver (Reach.performed_all _ .init)) 0 (by decide) maskSet)

end Bluebox.Chan
