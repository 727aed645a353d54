/-
  Bluebox.Members.Commands

  Every command keeps the lists of channels and clients in order.
-/
import Bluebox.Members.Enter

namespace Bluebox.Members

open Bluebox.Lib
open Bluebox.Chan (Client Sjoin allocateChannel lookupName locChannelLen channelLen checkChannelName isBanned
  sjoinParse sjoinMode sjoinUsers sjoinTarget tsCompare findClient findNamedClient)

section Commands

variable {w w' w'' : World} {s : Shape} {half half' : Nat → Prop} {fresh : Option Nat} {c u m : Nat}
  {cfg : Settings} {source : Client} {name key : Bytes} {now : Int} {isnew : Bool}

theorem SameClients.isClient (h : SameClients w w') (v : Nat) : w'.isClient v = w.isClient v := by
  unfold World.isClient
  rw [h.client]

theorem SameClients.myClient (h : SameClients w w') (v : Nat) : w'.myClient v = w.myClient v := by
  unfold World.myClient
  rw [h.client]

theorem isClient_of_client (h : w.client u = some source) : w.isClient u = source.isClient := by
  unfold World.isClient
  rw [h, Option.any_some]

-- ============================================================================
-- JOIN
-- ============================================================================

theorem canJoin_total (h : Inv w s half fresh) (cfg : Settings) (u : Nat) (source : Client) (c : Nat) (key : Bytes) :
    ∃ ok, canJoin cfg w u source c key = some ok := by
  unfold canJoin
  rw [(h.drawn.invited.listed u).search_eq
    (length_le_of_lt (h.drawn.invited.listed u).nodup (h.bounded.invited u)), Option.map_some]
  exact ⟨_, rfl⟩

/-- Nothing keeps a client from joining a new channel. -/
theorem canJoin_new (h : Inv w s half fresh) (hchan : w.chan c = allocateChannel name now) (cfg : Settings) (u : Nat)
    (source : Client) (key : Bytes) : canJoin cfg w u source c key = some true := by
  unfold canJoin
  rw [(h.drawn.invited.listed u).search_eq
    (length_le_of_lt (h.drawn.invited.listed u).nodup (h.bounded.invited u)), Option.map_some]
  simp [hchan, allocateChannel, Chan.Mode.none, isBanned]

theorem enterChannel_inv (h : At w s c isnew) (hu : w.isClient u = true)
    (hnot : ∀ m ∈ s.members c, (w.membership m).clientP ≠ u)
    (hnew : isnew = true → ∃ name now, w.chan c = allocateChannel name now) (cfg : Settings) (source : Client)
    (flags : UInt8) (key : Bytes) (now : Int) :
    ∃ w' s', enterChannel cfg w u source c flags key now = some w' ∧ Inv w' s' whole none ∧ SameClients w w' := by
  unfold enterChannel
  obtain ⟨ok, hok⟩ := canJoin_total h.inv cfg u source c key
  rw [hok, Option.bind_some]
  cases ok with
  | false =>
    cases isnew with
    | false => exact ⟨w, s, rfl, h.inv, .refl w⟩
    | true =>
      obtain ⟨name, ts, hchan⟩ := hnew rfl
      rw [canJoin_new h.inv hchan] at hok
      exact absurd (Option.some.inj hok) Bool.false_ne_true.symm
  | true =>
    rw [Bool.not_true, if_neg Bool.false_ne_true]
    obtain ⟨w', hrun, hsame, hinv⟩ := delInvite_inv ((h.enter hu hnot flags).inv.chan _) c u
    have hadd := addUserToChannel_sameClients w c u flags
    exact ⟨w', _, hrun, hinv, hsame.sameClients.clients.trans hadd.clients,
      hsame.sameClients.servptr.trans hadd.servptr⟩

/-- Names that the first loop lets through. -/
theorem joinNames_short (allowed : Bytes → Bool) (names : List Bytes) :
    ∀ first, ∀ name ∈ joinNames allowed first names, name.length ≤ locChannelLen := by
  induction names with
  | nil => exact fun _ _ hmem => absurd hmem List.not_mem_nil
  | cons x names ih =>
    intro first name hname
    unfold joinNames at hname
    split at hname
    · exact ih false name hname
    · next hlong =>
      have hx : x.length ≤ locChannelLen := by
        simp only [Bool.or_eq_true, decide_eq_true_eq, not_or, Nat.not_lt] at hlong
        omega
      split at hname
      · rcases List.mem_cons.mp hname with rfl | hname
        · exact hx
        · exact ih false name hname
      · split at hname
        · exact ih false name hname
        · rcases List.mem_cons.mp hname with rfl | hname
          · exact hx
          · exact ih false name hname

theorem lookupName_short (h : name.length ≤ locChannelLen) : lookupName name = name := by
  unfold lookupName
  rw [if_neg]
  unfold locChannelLen at h
  unfold channelLen
  omega

/-- A turn of the second loop, for a channel that there is. -/
theorem joinFound_inv (h : Inv w s whole none) (hu : w.isClient u = true) (hfind : findChannel w name = some c)
    (flags : UInt8) (full : Bool) :
    ∃ r s', ((findChannelMembership w c u).bind fun msptr =>
        if msptr.isSome then some (w, true)
        else if full then some (w, false)
        else (enterChannel cfg w u source c flags key now).map fun w => (w, true)) = some r ∧
      Inv r.1 s' whole none ∧ SameClients w r.1 := by
  obtain ⟨r, hrun, hmember⟩ := findChannelMembership_eq h c u
  rw [hrun, Option.bind_some]
  cases r with
  | some m => exact ⟨_, s, rfl, h, .refl w⟩
  | none =>
    rw [Option.isSome_none, if_neg Bool.false_ne_true]
    cases full with
    | true => exact ⟨_, s, rfl, h, .refl w⟩
    | false =>
      have hnot : ∀ m ∈ s.members c, (w.membership m).clientP ≠ u := fun m hm heq =>
        Option.some_ne_none m ((hmember m).mpr ⟨hm, heq⟩).symm
      obtain ⟨w', s', hrun, hinv, hsame⟩ := enterChannel_inv (.of_findChannel h hfind) hu hnot
        (fun hno => absurd hno Bool.false_ne_true) cfg source flags key now
      rw [if_neg Bool.false_ne_true, hrun]
      exact ⟨_, s', rfl, hinv, hsame⟩

/-- A turn of the second loop, for a new channel: what there is would have been found. -/
theorem joinNew_inv (h : Inv w s whole none) (hu : w.isClient u = true) (hname : name.length ≤ locChannelLen)
    (hfind : findChannel w name = none) :
    ∃ r s', (match getOrCreateChannel w name now with
        | none => some (w, true)
        | some (w, chptr, _) =>
          (enterChannel cfg w u source chptr Chan.chflChanop key now).map fun w => (w, true)) = some r ∧
      Inv r.1 s' whole none ∧ SameClients w r.1 := by
  cases hget : getOrCreateChannel w name now with
  | none => exact ⟨_, s, rfl, h, .refl w⟩
  | some r =>
    obtain ⟨v, c, isnew⟩ := r
    obtain ⟨t, hat, hsame, hisnew, hchan⟩ := getOrCreateChannel_inv h hget
    have hlookup : w.lookup (lookupName name) = none := by
      unfold findChannel at hfind
      rw [lookupName_short hname]
      split at hfind
      · next hnil =>
        rw [hnil] at hget
        exact absurd hget.symm (Option.some_ne_none _)
      · exact hfind
    obtain rfl := hisnew hlookup
    have hempty := hat.empty rfl
    have hnot : ∀ m ∈ t.members c, (v.membership m).clientP ≠ u := fun m hm => by
      rw [hempty] at hm
      exact absurd hm List.not_mem_nil
    obtain ⟨w', s', hrun, hinv, hsame'⟩ := enterChannel_inv hat ((hsame.isClient u).trans hu) hnot
      (fun hyes => ⟨_, _, hchan hyes⟩) cfg source Chan.chflChanop key now
    dsimp only
    rw [hrun]
    exact ⟨_, s', rfl, hinv, hsame.trans hsame'⟩

/-- A turn of the second loop. -/
theorem joinName_inv (h : Inv w s whole none) (hu : w.isClient u = true) (hname : name.length ≤ locChannelLen)
    (cfg : Settings) (source : Client) (creatable : Bytes → Bool) (key : Bytes) (now : Int) :
    ∃ r s', joinName cfg w u source creatable name key now = some r ∧ Inv r.1 s' whole none ∧ SameClients w r.1 := by
  unfold joinName
  by_cases hzero : name = [48]
  · obtain ⟨w', s', hrun, hinv, -, hsame⟩ := doJoin0_inv h u
    rw [if_pos hzero, hrun]
    exact ⟨_, s', rfl, hinv, hsame⟩
  · rw [if_neg hzero]
    cases hfind : findChannel w name with
    | some c => exact joinFound_inv h hu hfind _ _
    | none =>
      dsimp only
      by_cases hno : (!creatable name) = true
      · rw [if_pos hno]
        exact ⟨_, s, rfl, h, .refl w⟩
      · rw [if_neg hno]
        by_cases hfull : tooManyChannels cfg w u source = true
        · rw [if_pos hfull]
          exact ⟨_, s, rfl, h, .refl w⟩
        · rw [if_neg hfull]
          exact joinNew_inv h hu hname hfind

theorem joinLoop_inv (hu : w.isClient u = true) (creatable : Bytes → Bool) (names : List Bytes) :
    ∀ (keys : List Bytes) (v : World) (t : Shape), (∀ name ∈ names, name.length ≤ locChannelLen) → Inv v t whole none →
      SameClients w v →
      ∃ w' s', joinLoop cfg u source creatable now names keys v = some w' ∧ Inv w' s' whole none ∧ SameClients w w' := by
  induction names with
  | nil => exact fun keys v t _ hinv hsame => ⟨v, t, rfl, hinv, hsame⟩
  | cons name names ih =>
    intro keys v t hshort hinv hsame
    obtain ⟨r, t', hrun, hinv', hsame'⟩ := joinName_inv hinv ((hsame.isClient u).trans hu)
      (hshort name List.mem_cons_self) cfg source creatable (keys.headD []) now
    unfold joinLoop
    rw [hrun, Option.bind_some]
    split
    · exact ih keys.tail r.1 t' (fun x hx => hshort x (List.mem_cons_of_mem name hx)) hinv' (hsame.trans hsame')
    · exact ⟨r.1, t', rfl, hinv', hsame.trans hsame'⟩

theorem mJoin_inv (h : Inv w s whole none) (hu : w.isClient u = true) (cfg : Settings) (source : Client)
    (allowed creatable : Bytes → Bool) (chanlist keys : Bytes) (now : Int) :
    ∃ w' s', mJoin cfg w u source allowed creatable chanlist keys now = some w' ∧ Inv w' s' whole none ∧
      SameClients w w' :=
  joinLoop_inv hu creatable _ _ w s (joinNames_short allowed _ _) h (.refl w)

/-- A channel with a member is not new. -/
theorem At.settled (h : At w s c isnew) (hm : m ∈ s.members c) : Inv w s whole none := by
  cases isnew with
  | false => exact h.inv
  | true =>
    rw [h.empty rfl] at hm
    exact absurd hm List.not_mem_nil

/-- The modes of a side that is older are taken. -/
theorem At.loseModes (h : At w s c isnew) (keep : Bool) :
    ∃ w', (if keep then some w else removeOurModes w c) = some w' ∧ At w' s c isnew ∧ SameClients w w' := by
  split
  · exact ⟨w, rfl, h, .refl w⟩
  · obtain ⟨w', hrun, hinv, hsame⟩ := removeOurModes_inv h.inv c
    exact ⟨w', hrun, ⟨hinv, h.mem, h.empty⟩, hsame⟩

/-- A client that is not in the channel enters it. -/
theorem At.enterOnce (h : At w s c isnew) (hu : w.isClient u = true) (flags : UInt8) :
    ∃ r, findChannelMembership w c u = some r ∧ (r.isSome = true → Inv w s whole none) ∧
      (r.isSome = false → At (addUserToChannel w c u flags) (s.enter c u w.next (w.myClient u)) c false) := by
  obtain ⟨r, hrun, hmember⟩ := findChannelMembership_eq h.inv c u
  refine ⟨r, hrun, fun hsome => ?_, fun hnone => h.enter hu (fun m hm heq => ?_) flags⟩
  · obtain ⟨m, rfl⟩ := Option.isSome_iff_exists.mp hsome
    exact h.settled ((hmember m).mp rfl).1
  · rw [(hmember m).mpr ⟨hm, heq⟩, Option.isSome_some] at hnone
    exact absurd hnone.symm Bool.false_ne_true

theorem At.join (h : At w' s c isnew) (hsame : SameClients w w') (hu : w.isClient u = true) (flags : UInt8) :
    ∃ w'' s', ((findChannelMembership w' c u).map fun msptr =>
        if msptr.isSome then w' else addUserToChannel w' c u flags) = some w'' ∧ Inv w'' s' whole none ∧
      SameClients w w'' := by
  obtain ⟨r, hrun, hthere, hnot⟩ := h.enterOnce ((hsame.isClient u).trans hu) flags
  rw [hrun, Option.map_some]
  cases r with
  | some m => exact ⟨w', s, rfl, hthere rfl, hsame⟩
  | none => exact ⟨_, _, rfl, (hnot rfl).inv, hsame.trans (addUserToChannel_sameClients w' c u flags)⟩

/-- The `JOIN` of another server. -/
theorem msJoin_inv (h : Inv w s whole none) (hu : w.isClient u = true) (ts name : Bytes) (now : Int) :
    ∃ w' s', msJoin w u ts name now = some w' ∧ Inv w' s' whole none ∧ SameClients w w' := by
  unfold msJoin
  split
  · exact ⟨w, s, rfl, h, .refl w⟩
  · cases hget : getOrCreateChannel w name now with
    | none => exact ⟨w, s, rfl, h, .refl w⟩
    | some r =>
      obtain ⟨v, c, isnew⟩ := r
      obtain ⟨t, hat, hsame, -, -⟩ := getOrCreateChannel_inv h hget
      dsimp only
      split
      · rw [Option.bind_some]
        refine (hat.chan _).join ?_ hu 0
        exact ⟨hsame.clients, hsame.servptr⟩
      · obtain ⟨v', hlose, hinv, hsame'⟩ := removeOurModes_inv (hat.chan _).inv c
        have hat' : At v' t c isnew := ⟨hinv, hat.mem, hat.empty⟩
        rw [hlose, Option.map_some, Option.bind_some]
        refine (hat'.chan _).join ?_ hu 0
        exact ⟨hsame'.clients.trans hsame.clients, hsame'.servptr.trans hsame.servptr⟩

-- ============================================================================
-- SJOIN
-- ============================================================================

/-- A client that is found is the one at its address. -/
theorem client_of_mem (h : Inv w s half fresh) {x : Nat × Client} (hx : x ∈ w.clients) : w.client x.1 = some x.2 := by
  unfold World.client World.server Chan.Server.client
  dsimp only
  cases hfind : w.clients.find? fun y => y.1 == x.1 with
  | none =>
    refine absurd ?_ (List.find?_eq_none.mp hfind x hx)
    rw [beq_self_eq_true]
  | some y =>
    have hy := List.mem_of_find?_eq_some hfind
    have heq : y.1 = x.1 := by simpa using List.find?_some hfind
    rw [Option.map_some, List.inj_on_of_nodup_map h.bounded.clientNodup hy hx heq]

theorem mem_of_findClient {nick : Bytes} {x : Nat × Client} (h : findClient w.server nick = some x) :
    x ∈ w.clients := by
  unfold findClient at h
  split at h
  · exact absurd h.symm (Option.some_ne_none x)
  · split at h
    · exact List.mem_of_find?_eq_some h
    · exact List.mem_of_find?_eq_some h

theorem mem_of_findNamedClient {nick : Bytes} {x : Nat × Client} (h : findNamedClient w.server nick = some x) :
    x ∈ w.clients := by
  unfold findNamedClient at h
  split at h
  · exact absurd h.symm (Option.some_ne_none x)
  · exact List.mem_of_find?_eq_some h

theorem isClient_of_sjoinTarget (h : Inv w s half fresh) {link : Nat} {users : Bytes} {fl : UInt8}
    (htarget : sjoinTarget w.server link users = some (u, fl)) : w.isClient u = true := by
  unfold sjoinTarget at htarget
  dsimp only at htarget
  split at htarget
  · exact absurd htarget.symm (Option.some_ne_none _)
  · next hfind =>
    split at htarget
    · next huser =>
      obtain ⟨rfl, -⟩ := Prod.mk.inj (Option.some.inj htarget)
      exact (isClient_of_client (client_of_mem h (mem_of_findClient hfind))).trans huser.2
    · exact absurd htarget.symm (Option.some_ne_none _)

/-- One user of an `SJOIN`: a channel is new as long as nobody has joined. -/
theorem sjoinUser_inv {st : World × Nat} (h : At st.1 s c (isnew && st.2 == 0)) (link : Nat) (keep : Bool)
    (users : Bytes) :
    ∃ st' s', sjoinUser link c keep st users = some st' ∧ At st'.1 s' c (isnew && st'.2 == 0) ∧
      SameClients st.1 st'.1 := by
  unfold sjoinUser
  cases htarget : sjoinTarget st.1.server link users with
  | none => exact ⟨st, s, rfl, h, .refl _⟩
  | some r =>
    obtain ⟨targetP, fl⟩ := r
    obtain ⟨r, hrun, -, hnot⟩ := h.enterOnce (isClient_of_sjoinTarget h.inv htarget) (Chan.sjoinStatus keep fl)
    dsimp only
    rw [hrun, Option.map_some]
    cases r with
    | some m => exact ⟨st, s, rfl, h, .refl _⟩
    | none =>
      have hadd := addUserToChannel_sameClients st.1 c targetP (Chan.sjoinStatus keep fl)
      have hnew : (isnew && st.2 + 1 == 0) = false := by
        rw [beq_false_of_ne (Nat.succ_ne_zero st.2), Bool.and_false]
      refine ⟨(addUserToChannel st.1 c targetP (Chan.sjoinStatus keep fl), st.2 + 1),
        s.enter c targetP st.1.next (st.1.myClient targetP), rfl, ?_, hadd⟩
      rw [hnew]
      exact hnot rfl

theorem sjoinFold_inv (link : Nat) (keep : Bool) (users : List Bytes) :
    ∀ (st : World × Nat) (s : Shape), At st.1 s c (isnew && st.2 == 0) → SameClients w st.1 →
      ∃ st' s', users.foldlM (sjoinUser link c keep) st = some st' ∧ At st'.1 s' c (isnew && st'.2 == 0) ∧
        SameClients w st'.1 := by
  induction users with
  | nil => exact fun st s h hsame => ⟨st, s, rfl, h, hsame⟩
  | cons x users ih =>
    intro st s h hsame
    obtain ⟨st', s', hrun, h', hsame'⟩ := sjoinUser_inv h link keep x
    obtain ⟨st'', s'', hrest, h'', hsame''⟩ := ih st' s' h' (hsame.trans hsame')
    refine ⟨st'', s'', ?_, h'', hsame''⟩
    rw [List.foldlM_cons, hrun]
    exact hrest

/-- What `SJOIN` does after the users have joined: a new channel that nobody joined is destroyed. -/
theorem sjoinEnd_inv {st : World × Nat} (h : At st.1 s c (isnew && st.2 == 0)) (hsame : SameClients w st.1)
    (b : Bool) (f : Nat → Chan.Channel) :
    ∃ w' s', (if st.2 = 0 then if isnew then destroyChannel st.1 c else some st.1
        else if b then some { st.1 with chan := f } else some st.1) = some w' ∧ Inv w' s' whole none ∧
      SameClients w w' := by
  obtain ⟨v, n⟩ := st
  dsimp only at h hsame ⊢
  by_cases hn : n = 0
  · subst hn
    rw [if_pos rfl]
    cases isnew with
    | true =>
      obtain ⟨w', s', hrun, hinv, -, -, husers⟩ := destroyChannel_inv h.inv h.mem (h.empty rfl)
      exact ⟨w', s', hrun, hinv, hsame.trans husers.sameClients⟩
    | false => exact ⟨v, s, rfl, h.inv, hsame⟩
  · rw [beq_false_of_ne hn, Bool.and_false] at h
    rw [if_neg hn]
    cases b with
    | true => exact ⟨_, s, rfl, (h.chan f).inv, hsame.clients, hsame.servptr⟩
    | false => exact ⟨v, s, rfl, h.inv, hsame⟩

theorem msSjoin_inv (h : Inv w s whole none) (m : Sjoin) (now : Int) :
    ∃ w' s', msSjoin w m now = some w' ∧ Inv w' s' whole none ∧ SameClients w w' := by
  unfold msSjoin
  split
  · exact ⟨w, s, rfl, h, .refl w⟩
  · next mode users hparse =>
    cases hget : getOrCreateChannel w m.name now with
    | none => exact ⟨w, s, rfl, h, .refl w⟩
    | some r =>
      obtain ⟨v, c, isnew⟩ := r
      obtain ⟨t, hat, hsame, -, -⟩ := getOrCreateChannel_inv h hget
      have hat₁ := hat.chan
        (Function.update v.chan c { v.chan c with
          channelts := (tsCompare isnew (v.chan c).channelts (atol m.ts)).ts })
      obtain ⟨v', hmodes, hat', hsame'⟩ :=
        hat₁.loseModes (tsCompare isnew (v.chan c).channelts (atol m.ts)).keepOurModes
      dsimp only
      rw [hmodes, Option.bind_some]
      have hstart : ∀ f, At { v' with chan := f } t c (isnew && 0 == 0) := fun f => by
        rw [beq_self_eq_true, Bool.and_true]
        exact hat'.chan f
      have hsame₁ : SameClients w v' := ⟨hsame'.clients.trans hsame.clients, hsame'.servptr.trans hsame.servptr⟩
      obtain ⟨st, t', hfold, hat'', hsame''⟩ := sjoinFold_inv (w := w) m.link
        (tsCompare isnew (v.chan c).channelts (atol m.ts)).keepNewModes (sjoinUsers [] users)
        ({ v' with chan := Function.update v'.chan c { v'.chan c with
          mode := sjoinMode (tsCompare isnew (v.chan c).channelts (atol m.ts)) mode (v.chan c).mode } }, 0) t
        (hstart _) ⟨hsame₁.clients, hsame₁.servptr⟩
      rw [hfold, Option.bind_some]
      exact sjoinEnd_inv hat'' hsame'' _ _

-- ============================================================================
-- INVITE
-- ============================================================================

/-- The data on the lists after a node was added to one of them. -/
theorem map_add_data {on : Nat → List Nat} {mem : Nodes} {k : Nat} (hk : ∀ q, k ∉ on q) (list : DlinkList Nat)
    (o q d : Nat) :
    (Function.update on o (k :: on o) q).map (fun x => ((list.add mem d k).1 x).data) =
      Function.update (fun q => (on q).map fun x => (mem x).data) o (d :: (on o).map fun x => (mem x).data) q := by
  have hkeep : ∀ q, (on q).map (fun x => ((list.add mem d k).1 x).data) = (on q).map fun x => (mem x).data :=
    fun q => List.map_congr_left fun x hx => by
      rw [add_data, if_neg (ne_of_mem_of_not_mem hx (hk q))]
  by_cases hq : q = o
  · subst hq
    rw [Function.update_self, Function.update_self, List.map_cons, hkeep, add_data, if_pos rfl]
  · rw [Function.update_of_ne hq, Function.update_of_ne hq, hkeep]

/-- An invitation is on both lists. -/
theorem invite_inv (h : Inv w s whole fresh) (hc : c ∈ s.channels) (hu : w.myClient u = true)
    (hnot : ∀ k ∈ s.invited u, (w.invitedNode k).data ≠ c) :
    Inv { w with
        next := w.next + 2
        inviteNode := ((w.invites c).add w.inviteNode u w.next).1
        invites := Function.update w.invites c ((w.invites c).add w.inviteNode u w.next).2
        invitedNode := ((w.invited u).add w.invitedNode c (w.next + 1)).1
        invited := Function.update w.invited u ((w.invited u).add w.invitedNode c (w.next + 1)).2 }
      { s with
        invites := Function.update s.invites c (w.next :: s.invites c)
        invited := Function.update s.invited u ((w.next + 1) :: s.invited u) } whole fresh := by
  have hout : ∀ q, w.next ∉ s.invites q := fun q hq => absurd (h.bounded.invites q _ hq) (lt_irrefl _)
  have hout' : ∀ v, w.next + 1 ∉ s.invited v := fun v hv =>
    absurd (h.bounded.invited v _ hv) (Nat.not_lt.mpr (Nat.le_succ _))
  have hmore : Bounded { w with next := w.next + 2 } s := h.bounded.more (Nat.le_add_right _ 2) rfl
  refine ⟨?_, ?_, ?_, ?_⟩
  · exact { h.drawn with
      invites := h.drawn.invites.add hout c u
      invited := h.drawn.invited.add hout' u c }
  · exact { hmore with
      invites := fun q x hx => by
        rcases mem_update_cons.mp hx with ⟨rfl, -⟩ | hx
        · exact Nat.lt_add_of_pos_right Nat.two_pos
        · exact hmore.invites q x hx
      invited := fun v x hx => by
        rcases mem_update_cons.mp hx with ⟨rfl, -⟩ | hx
        · exact Nat.lt_succ_self _
        · exact hmore.invited v x hx }
  · exact { h.tied with }
  · -- a client that is not invited has no node on the list of the channel either
    have hfresh : u ∉ (s.invites c).map fun k => (w.inviteNode k).data := fun hmem => by
      obtain ⟨k, hk, hdata⟩ := (h.asked.both c u).mp (List.mem_map.mp hmem)
      exact hnot k hk hdata
    have hfresh' : c ∉ (s.invited u).map fun k => (w.invitedNode k).data := fun hmem => by
      obtain ⟨k, hk, hdata⟩ := List.mem_map.mp hmem
      exact hnot k hk hdata
    refine ⟨fun q => ?_, fun v => ?_, fun q v => ?_, fun q k hk => ?_, fun v k hk => ?_⟩
    · dsimp only
      rw [map_add_data hout]
      by_cases hq : q = c
      · subst hq
        rw [Function.update_self]
        exact List.nodup_cons.mpr ⟨hfresh, h.asked.invites q⟩
      · rw [Function.update_of_ne hq]
        exact h.asked.invites q
    · dsimp only
      rw [map_add_data hout']
      by_cases hv : v = u
      · subst hv
        rw [Function.update_self]
        exact List.nodup_cons.mpr ⟨hfresh', h.asked.invited v⟩
      · rw [Function.update_of_ne hv]
        exact h.asked.invited v
    · dsimp only
      rw [← List.mem_map, ← List.mem_map, map_add_data hout, map_add_data hout']
      refine mem_update_cons.trans (Iff.trans ?_ mem_update_cons.symm)
      refine or_congr and_comm ?_
      rw [List.mem_map, List.mem_map]
      exact h.asked.both q v
    · rcases mem_update_cons.mp hk with ⟨-, rfl⟩ | hk
      · exact hc
      · exact h.asked.alive q k hk
    · rcases mem_update_cons.mp hk with ⟨-, rfl⟩ | hk
      · exact hu
      · exact h.asked.myClient v k hk

/-- `INVITE` is done, or it has read the tail of an empty list, where there is no room for one
    invitation. -/
def Invited (cfg : Settings) (w : World) (o : Option World) : Prop :=
  (∃ w' s', o = some w' ∧ Inv w' s' whole none ∧ SameClients w w') ∨ o = none ∧ cfg.maxChansPerUser ≤ 0

theorem Inv.invited (h : Inv w s whole none) (cfg : Settings) : Invited cfg w (some w) :=
  Or.inl ⟨w, s, rfl, h, .refl w⟩

theorem addInvite_inv (h : Inv w s whole none) (hc : c ∈ s.channels) (hu : w.myClient u = true) (cfg : Settings) :
    Invited cfg w (addInvite cfg w c u) := by
  unfold addInvite
  rw [(h.drawn.invited.listed u).search_eq
    (length_le_of_lt (h.drawn.invited.listed u).nodup (h.bounded.invited u)), Option.bind_some]
  cases hfind : (s.invited u).find? fun ptr => (w.invitedNode ptr).data == c with
  | some k => exact h.invited cfg
  | none =>
    have hnot : ∀ k ∈ s.invited u, (w.invitedNode k).data ≠ c := fun k hk =>
      by simpa using List.find?_eq_none.mp hfind k hk
    rw [Option.isSome_none, if_neg Bool.false_ne_true]
    split
    · next hfull =>
      rw [(h.drawn.invited.listed u).tail]
      cases htail : (s.invited u).getLast? with
      | none =>
        rw [(h.drawn.invited.listed u).length, List.getLast?_eq_none_iff.mp htail] at hfull
        exact Or.inr ⟨rfl, hfull⟩
      | some k =>
        obtain ⟨v, hrun, hsame, hinv⟩ := delInvite_inv h (w.invitedNode k).data u
        have hsub : ∀ x ∈ (s.uninvite w (w.invitedNode k).data u).invited u, (v.invitedNode x).data ≠ c := by
          intro x hx
          rw [hsame.invitedData]
          exact hnot x (mem_update_filter.mp hx).1
        rw [Option.bind_some, hrun, Option.map_some]
        refine Or.inl ⟨_, _, rfl, invite_inv hinv hc ((hsame.sameClients.myClient u).trans hu) hsub, ?_⟩
        exact ⟨hsame.sameClients.clients, hsame.sameClients.servptr⟩
    · rw [Option.map_some]
      exact Or.inl ⟨_, _, rfl, invite_inv h hc hu hnot, rfl, rfl⟩

theorem mInvite_inv (h : Inv w s whole none) (cfg : Settings) (u : Nat) (source : Client) (user name : Bytes) :
    Invited cfg w (mInvite cfg w u source user name) := by
  have hstay : ∀ {p : Prop}, p → Invited cfg w (some w) := fun _ => h.invited cfg
  unfold mInvite
  dsimp only
  cases htarget : (if source.myClient then findNamedClient w.server user else findClient w.server user).filter
      fun x => x.2.isClient with
  | none => exact h.invited cfg
  | some r =>
    obtain ⟨targetP, target⟩ := r
    obtain ⟨hfound, huser⟩ := Option.filter_eq_some_iff.mp htarget
    have hmem : (targetP, target) ∈ w.clients := by
      split at hfound
      · exact mem_of_findNamedClient hfound
      · exact mem_of_findClient hfound
    refine iteInduction (motive := Invited cfg w) hstay fun _ => ?_
    refine iteInduction (motive := Invited cfg w) hstay fun _ => ?_
    cases hfind : findChannel w name with
    | none => exact h.invited cfg
    | some c =>
      obtain ⟨msptr, hms, -⟩ := findChannelMembership_eq h c u
      obtain ⟨there, hthere, -⟩ := findChannelMembership_eq h c targetP
      dsimp only
      rw [hms, hthere, Option.bind_some, Option.bind_some]
      refine iteInduction (motive := Invited cfg w) hstay fun _ => ?_
      refine iteInduction (motive := Invited cfg w) hstay fun _ => ?_
      refine iteInduction (motive := Invited cfg w) hstay fun _ => ?_
      refine iteInduction (motive := Invited cfg w) (fun hstore => ?_) fun _ => h.invited cfg
      refine addInvite_inv h (At.of_findChannel h hfind).mem ?_ cfg
      unfold World.myClient
      rw [client_of_mem h hmem, Option.any_some]
      exact Bool.and_eq_true_iff.mpr ⟨(Bool.and_eq_true_iff.mp hstore).1, huser⟩

end Commands

end Bluebox.Members
