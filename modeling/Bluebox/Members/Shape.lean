/-
  Bluebox.Members.Shape

  What the lists of channels and clients look like in every state: which nodes are on them, and
  how they agree.

  `Shape` has the nodes of every list.  `Drawn` says that the pointers in memory are those of
  the lists, and `Tied` and `Asked` how the lists agree with each other.  Between the steps of an
  operation some of that does not hold: a membership that is `half` is on one of its lists only,
  and a channel that is `fresh` has no members yet.
-/
import Bluebox.Members.Basic

namespace Bluebox.Members

open Bluebox.Lib
open Bluebox.Chan (Client)

-- ============================================================================
-- The invariant
-- ============================================================================

/-- The nodes on the lists of all channels and clients, and on the list of channels. -/
@[ext] structure Shape where
  members : Nat → List Nat
  locals : Nat → List Nat
  chans : Nat → List Nat
  invites : Nat → List Nat
  invited : Nat → List Nat
  channels : List Nat

/-- The pointers are those of the lists, and a node of a membership or a channel has that as its
    data. -/
structure Drawn (w : World) (s : Shape) : Prop where
  members : Family w.channode w.members s.members
  locals : Family w.locchannode w.locmembers s.locals
  chans : Family w.usernode w.channel s.chans
  invites : Family w.inviteNode w.invites s.invites
  invited : Family w.invitedNode w.invited s.invited
  channels : Listed w.node w.globalChannelList s.channels
  memberData : ∀ c, ∀ m ∈ s.members c, (w.channode m).data = m
  localData : ∀ c, ∀ m ∈ s.locals c, (w.locchannode m).data = m
  chanData : ∀ u, ∀ m ∈ s.chans u, (w.usernode m).data = m
  channelData : ∀ c ∈ s.channels, (w.node c).data = c

/-- Addresses on lists are in use. -/
structure Bounded (w : World) (s : Shape) : Prop where
  members : ∀ c, ∀ m ∈ s.members c, m < w.next
  chans : ∀ u, ∀ m ∈ s.chans u, m < w.next
  invites : ∀ c, ∀ k ∈ s.invites c, k < w.next
  invited : ∀ u, ∀ k ∈ s.invited u, k < w.next
  channels : ∀ c ∈ s.channels, c < w.next
  clients : ∀ x ∈ w.clients, me < x.1 ∧ x.1 < w.next
  clientNodup : (w.clients.map (·.1)).Nodup
  me_lt : me < w.next

/-- The lists of members, of channels and of local members agree. -/
structure Tied (w : World) (s : Shape) (half : Nat → Prop) (fresh : Option Nat) : Prop where
  owner : ∀ c, ∀ m ∈ s.members c, (w.membership m).chptr = c
  user : ∀ u, ∀ m ∈ s.chans u, (w.membership m).clientP = u
  both : ∀ m, ¬ half m → (m ∈ s.members (w.membership m).chptr ↔ m ∈ s.chans (w.membership m).clientP)
  locals : ∀ c m, m ∈ s.locals c ↔ m ∈ s.members c ∧ w.myClient (w.membership m).clientP = true
  single : ∀ c, ∀ m ∈ s.members c, ∀ m' ∈ s.members c,
    (w.membership m).clientP = (w.membership m').clientP → m = m'
  alive : ∀ c, ∀ m ∈ s.members c, c ∈ s.channels
  populated : ∀ c ∈ s.channels, s.members c ≠ [] ∨ fresh = some c
  isClient : ∀ c, ∀ m ∈ s.members c, w.isClient (w.membership m).clientP = true
  chanClient : ∀ u, ∀ m ∈ s.chans u, w.isClient u = true
  servptr : ∀ u, w.isClient u = true → (w.servptr u = me ↔ w.myClient u = true)
  table : ∀ c, c ∈ w.channelTable ↔ c ∈ s.channels
  tableNodup : w.channelTable.Nodup

/-- The invitations of channels and of clients agree. -/
structure Asked (w : World) (s : Shape) : Prop where
  invites : ∀ c, ((s.invites c).map fun k => (w.inviteNode k).data).Nodup
  invited : ∀ u, ((s.invited u).map fun k => (w.invitedNode k).data).Nodup
  both : ∀ c u, (∃ k ∈ s.invites c, (w.inviteNode k).data = u) ↔ ∃ k ∈ s.invited u, (w.invitedNode k).data = c
  alive : ∀ c, ∀ k ∈ s.invites c, c ∈ s.channels
  myClient : ∀ u, ∀ k ∈ s.invited u, w.myClient u = true

/-- All of it. -/
structure Inv (w : World) (s : Shape) (half : Nat → Prop) (fresh : Option Nat) : Prop where
  drawn : Drawn w s
  bounded : Bounded w s
  tied : Tied w s half fresh
  asked : Asked w s

theorem Bounded.more {w w' : World} {s : Shape} (h : Bounded w s) (hle : w.next ≤ w'.next)
    (hclients : w'.clients = w.clients) : Bounded w' s where
  members c m hm := (h.members c m hm).trans_le hle
  chans u m hm := (h.chans u m hm).trans_le hle
  invites c k hk := (h.invites c k hk).trans_le hle
  invited u k hk := (h.invited u k hk).trans_le hle
  channels c hc := (h.channels c hc).trans_le hle
  clients x hx := (h.clients x (hclients ▸ hx)).imp_right fun hlt => hlt.trans_le hle
  clientNodup := by
    rw [hclients]
    exact h.clientNodup
  me_lt := h.me_lt.trans_le hle

/-- No membership is half. -/
def whole : Nat → Prop := fun _ => False

theorem inv_start : Inv World.start ⟨fun _ => [], fun _ => [], fun _ => [], fun _ => [], fun _ => [], []⟩ whole none where
  drawn := by
    refine ⟨.empty _, .empty _, .empty _, .empty _, .empty _, .empty _, ?_, ?_, ?_, ?_⟩
    · exact fun _ _ hm => absurd hm List.not_mem_nil
    · exact fun _ _ hm => absurd hm List.not_mem_nil
    · exact fun _ _ hm => absurd hm List.not_mem_nil
    · exact fun _ hm => absurd hm List.not_mem_nil
  bounded := by
    refine ⟨?_, ?_, ?_, ?_, ?_, ?_, List.nodup_nil, Nat.lt_succ_self me⟩
    · exact fun _ _ hm => absurd hm List.not_mem_nil
    · exact fun _ _ hm => absurd hm List.not_mem_nil
    · exact fun _ _ hm => absurd hm List.not_mem_nil
    · exact fun _ _ hm => absurd hm List.not_mem_nil
    · exact fun _ hm => absurd hm List.not_mem_nil
    · exact fun _ hm => absurd hm List.not_mem_nil
  tied := by
    refine ⟨?_, ?_, ?_, ?_, ?_, ?_, ?_, ?_, ?_, ?_, ?_, List.nodup_nil⟩
    · exact fun _ _ hm => absurd hm List.not_mem_nil
    · exact fun _ _ hm => absurd hm List.not_mem_nil
    · exact fun _ _ => iff_of_false List.not_mem_nil List.not_mem_nil
    · exact fun _ _ => iff_of_false List.not_mem_nil fun h => absurd h.1 List.not_mem_nil
    · exact fun _ _ hm => absurd hm List.not_mem_nil
    · exact fun _ _ hm => absurd hm List.not_mem_nil
    · exact fun _ hm => absurd hm List.not_mem_nil
    · exact fun _ _ hm => absurd hm List.not_mem_nil
    · exact fun _ _ hm => absurd hm List.not_mem_nil
    · exact fun _ h => absurd h Bool.false_ne_true
    · exact fun _ => Iff.rfl
  asked := by
    refine ⟨fun _ => List.nodup_nil, fun _ => List.nodup_nil, fun _ _ => ?_, ?_, ?_⟩
    · exact iff_of_false (fun ⟨_, hk, _⟩ => absurd hk List.not_mem_nil) fun ⟨_, hk, _⟩ => absurd hk List.not_mem_nil
    · exact fun _ _ hk => absurd hk List.not_mem_nil
    · exact fun _ _ hk => absurd hk List.not_mem_nil

-- ============================================================================
-- Invitations
-- ============================================================================

section Invitations

variable {w w' w'' : World} {s : Shape} {half : Nat → Prop} {fresh : Option Nat} {c u : Nat}

/-- Only invitations are changed, and none of them says anything else. -/
structure SameButInvites (w w' : World) : Prop where
  eq : ∃ a b a' b', w' = { w with inviteNode := a, invites := b, invitedNode := a', invited := b' }
  inviteData : ∀ k, (w'.inviteNode k).data = (w.inviteNode k).data
  invitedData : ∀ k, (w'.invitedNode k).data = (w.invitedNode k).data

theorem SameButInvites.refl (w : World) : SameButInvites w w := ⟨⟨_, _, _, _, rfl⟩, fun _ => rfl, fun _ => rfl⟩

theorem SameButInvites.trans (h : SameButInvites w w') (h' : SameButInvites w' w'') : SameButInvites w w'' := by
  obtain ⟨a, b, a', b', rfl⟩ := h.eq
  obtain ⟨d, e, d', e', rfl⟩ := h'.eq
  exact ⟨⟨d, e, d', e', rfl⟩, fun k => (h'.inviteData k).trans (h.inviteData k),
    fun k => (h'.invitedData k).trans (h.invitedData k)⟩

/-- The invitation of a client to a channel is left out. -/
def Shape.uninvite (s : Shape) (w : World) (c u : Nat) : Shape :=
  { s with
    invites := Function.update s.invites c ((s.invites c).filter fun k => (w.inviteNode k).data ≠ u)
    invited := Function.update s.invited u ((s.invited u).filter fun k => (w.invitedNode k).data ≠ c) }

theorem mem_update_filter {on : Nat → List Nat} {f : Nat → Nat} {o q k d : Nat} :
    k ∈ Function.update on o ((on o).filter fun k => f k ≠ d) q ↔ k ∈ on q ∧ ¬ (q = o ∧ f k = d) := by
  by_cases hq : q = o
  · subst hq
    rw [Function.update_self, List.mem_filter]
    simp
  · rw [Function.update_of_ne hq]
    simp [hq]

theorem update_filter_sublist (on : Nat → List Nat) (f : Nat → Nat) (o d q : Nat) :
    (Function.update on o ((on o).filter fun k => f k ≠ d) q).Sublist (on q) := by
  by_cases hq : q = o
  · subst hq
    rw [Function.update_self]
    exact List.filter_sublist
  · rw [Function.update_of_ne hq]

theorem Asked.uninvite (h : Asked w s) (hsame : SameButInvites w w') (c u : Nat) : Asked w' (s.uninvite w c u) := by
  have hdata := hsame.inviteData
  have hdata' := hsame.invitedData
  obtain ⟨a, b, a', b', hw⟩ := hsame.eq
  refine ⟨fun q => ?_, fun q => ?_, fun q v => ?_, fun q k hk => ?_, fun v k hk => ?_⟩
  · rw [funext hdata]
    exact (h.invites q).sublist ((update_filter_sublist s.invites _ c u q).map _)
  · rw [funext hdata']
    exact (h.invited q).sublist ((update_filter_sublist s.invited _ u c q).map _)
  · have hleft : (∃ k ∈ (s.uninvite w c u).invites q, (w'.inviteNode k).data = v) ↔
        (∃ k ∈ s.invites q, (w.inviteNode k).data = v) ∧ ¬ (q = c ∧ v = u) := by
      simp only [Shape.uninvite, mem_update_filter, hdata]
      constructor
      · rintro ⟨k, ⟨hk, hne⟩, rfl⟩
        exact ⟨⟨k, hk, rfl⟩, hne⟩
      · rintro ⟨⟨k, hk, rfl⟩, hne⟩
        exact ⟨k, ⟨hk, hne⟩, rfl⟩
    have hright : (∃ k ∈ (s.uninvite w c u).invited v, (w'.invitedNode k).data = q) ↔
        (∃ k ∈ s.invited v, (w.invitedNode k).data = q) ∧ ¬ (q = c ∧ v = u) := by
      simp only [Shape.uninvite, mem_update_filter, hdata']
      constructor
      · rintro ⟨k, ⟨hk, hne⟩, rfl⟩
        exact ⟨⟨k, hk, rfl⟩, fun heq => hne heq.symm⟩
      · rintro ⟨⟨k, hk, rfl⟩, hne⟩
        exact ⟨k, ⟨hk, fun heq => hne heq.symm⟩, rfl⟩
    rw [hleft, hright, h.both q v]
  · exact h.alive q k (mem_update_filter.mp hk).1
  · have hold := h.myClient v k (mem_update_filter.mp hk).1
    rw [hw]
    exact hold

/-- An invitation is taken off both lists, if it is there. -/
theorem delInvite_inv (h : Inv w s half fresh) (c u : Nat) :
    ∃ w', delInvite w c u = some w' ∧ SameButInvites w w' ∧ Inv w' (s.uninvite w c u) half fresh := by
  obtain ⟨r, hrun, hinvites, hdata⟩ := h.drawn.invites.findDelete c
    (length_le_of_lt (h.drawn.invites.listed c).nodup (h.bounded.invites c)) (h.asked.invites c) u
  obtain ⟨r', hrun', hinvited, hdata'⟩ := h.drawn.invited.findDelete u
    (length_le_of_lt (h.drawn.invited.listed u).nodup (h.bounded.invited u)) (h.asked.invited u) c
  obtain ⟨w', hw'⟩ : ∃ w', w' = { w with
      inviteNode := r.1
      invites := Function.update w.invites c r.2
      invitedNode := r'.1
      invited := Function.update w.invited u r'.2 } := ⟨_, rfl⟩
  have hdel : delInvite w c u = some w' := by
    unfold delInvite
    rw [hrun, Option.bind_some, hrun', hw']
    rfl
  have hsame : SameButInvites w w' := by
    subst hw'
    exact ⟨⟨_, _, _, _, rfl⟩, hdata, hdata'⟩
  have hasked := h.asked.uninvite hsame c u
  subst hw'
  refine ⟨_, hdel, hsame, { h.drawn with invites := hinvites, invited := hinvited }, ?_, { h.tied with }, hasked⟩
  exact { h.bounded with
    invites := fun q k hk => h.bounded.invites q k (mem_update_filter.mp hk).1
    invited := fun q k hk => h.bounded.invited q k (mem_update_filter.mp hk).1 }

end Invitations

-- ============================================================================
-- Leaving
-- ============================================================================

section Leaving

variable {w w' w'' : World} {s : Shape} {half : Nat → Prop} {fresh : Option Nat} {c u m : Nat}

/-- Clients and their memberships are the same. -/
structure SameUsers (w w' : World) : Prop where
  next : w'.next = w.next
  clients : w'.clients = w.clients
  servptr : w'.servptr = w.servptr
  membership : w'.membership = w.membership
  usernode : w'.usernode = w.usernode
  channel : w'.channel = w.channel

theorem SameUsers.refl (w : World) : SameUsers w w := ⟨rfl, rfl, rfl, rfl, rfl, rfl⟩

theorem SameUsers.trans (h : SameUsers w w') (h' : SameUsers w' w'') : SameUsers w w'' :=
  ⟨h'.next.trans h.next, h'.clients.trans h.clients, h'.servptr.trans h.servptr, h'.membership.trans h.membership,
    h'.usernode.trans h.usernode, h'.channel.trans h.channel⟩

theorem SameButInvites.sameUsers (h : SameButInvites w w') : SameUsers w w' := by
  obtain ⟨a, b, a', b', rfl⟩ := h.eq
  exact ⟨rfl, rfl, rfl, rfl, rfl, rfl⟩

/-- Where all data is different, leaving out that of the first node leaves out the first node. -/
theorem filter_head {f : Nat → Nat} {x : Nat} {xs : List Nat} (h : ((x :: xs).map f).Nodup) :
    (x :: xs).filter (fun k => f k ≠ f x) = xs := by
  rw [List.map_cons, List.nodup_cons] at h
  rw [List.filter_cons_of_neg (by simp)]
  exact List.filter_eq_self.mpr fun y hy => by
    simpa using fun heq => h.1 (List.mem_map.mpr ⟨y, hy, heq⟩)

/-- The rule for a loop that takes back the invitations of a list, one after the other: `l` is the
    list, `g` says which channel and which client a node is about. -/
theorem uninviteLoop_inv {f : World → Nat → Option Nat} {g : World → Nat → Nat × Nat} {l : Shape → List Nat}
    (hnext : ∀ v t x xs, Inv v t half fresh → l t = x :: xs → f v x = xs.head?)
    (hrest : ∀ v t x xs, Inv v t half fresh → l t = x :: xs → l (t.uninvite v (g v x).1 (g v x).2) = xs)
    (h : Inv w s half fresh) {k : Nat} (hk : (l s).length ≤ k) :
    ∃ v, DlinkList.foreachSafe f (fun ptr w => delInvite w (g w ptr).1 (g w ptr).2) k (l s).head? w = some v ∧
      ∃ iv iv', Inv v { s with invites := iv, invited := iv' } half fresh ∧
        l { s with invites := iv, invited := iv' } = [] ∧ SameButInvites w v := by
  refine foreachSafe_rule (I := fun xs v => ∃ iv iv', Inv v { s with invites := iv, invited := iv' } half fresh ∧
    l { s with invites := iv, invited := iv' } = xs ∧ SameButInvites w v) ?_ ?_ hk ⟨s.invites, s.invited, h, rfl, .refl w⟩
  · rintro x xs v ⟨iv, iv', hv, hxs, -⟩
    exact hnext v _ x xs hv hxs
  · rintro x xs v ⟨iv, iv', hv, hxs, hsame⟩
    obtain ⟨v', hrun, hsame', hinv⟩ := delInvite_inv hv (g v x).1 (g v x).2
    exact ⟨v', hrun, _, _, hinv, hrest v _ x xs hv hxs, hsame.trans hsame'⟩

/-- Nobody is invited to a channel any more that is about to be destroyed. -/
theorem uninviteAll_inv (h : Inv w s half fresh) (c : Nat) :
    ∃ v, DlinkList.foreachSafe (fun w ptr => (w.inviteNode ptr).next)
        (fun ptr w => delInvite w c (w.inviteNode ptr).data) w.next (w.invites c).head w = some v ∧
      ∃ iv iv', Inv v { s with invites := iv, invited := iv' } half fresh ∧ iv c = [] ∧ SameButInvites w v := by
  rw [(h.drawn.invites.listed c).head]
  refine uninviteLoop_inv (g := fun w ptr => (c, (w.inviteNode ptr).data)) (l := fun t => t.invites c) ?_ ?_ h
    (length_le_of_lt (h.drawn.invites.listed c).nodup (h.bounded.invites c))
  · intro v t x xs hv hxs
    have hlisted := hv.drawn.invites.listed c
    rw [hxs] at hlisted
    exact hlisted.head_next
  · intro v t x xs hv hxs
    have honce := hv.asked.invites c
    rw [hxs] at honce
    unfold Shape.uninvite
    dsimp only
    rw [Function.update_self, hxs]
    exact filter_head honce

/-- A channel without members is destroyed. -/
theorem destroyChannel_inv (h : Inv w s half (some c)) (hc : c ∈ s.channels) (hempty : s.members c = []) :
    ∃ w' s', destroyChannel w c = some w' ∧ Inv w' s' half none ∧ s'.members = s.members ∧ s'.chans = s.chans ∧
      SameUsers w w' := by
  obtain ⟨v, hloop, iv, iv', hv, hnone, hsame⟩ := uninviteAll_inv h c
  have hchannels := hv.drawn.channels.delete hc
  have hnodup := hv.drawn.channels.nodup
  have hother : ∀ {q}, q ∈ s.channels.erase c ↔ q ≠ c ∧ q ∈ s.channels := fun {q} => hnodup.mem_erase_iff
  have hkeep : ∀ q, ∀ x ∈ s.members q, q ∈ s.channels.erase c := by
    intro q x hx
    refine hother.mpr ⟨?_, h.tied.alive q x hx⟩
    rintro rfl
    rw [hempty] at hx
    exact absurd hx List.not_mem_nil
  obtain ⟨w', hw'⟩ : ∃ w', w' = { v with
      chan := Function.update v.chan c { v.chan c with banlist := [], exceptlist := [], invexlist := [] }
      node := (v.globalChannelList.delete v.node c).1
      globalChannelList := (v.globalChannelList.delete v.node c).2
      channelTable := v.channelTable.erase c } := ⟨_, rfl⟩
  have hrun : destroyChannel w c = some w' := by
    unfold destroyChannel
    rw [hloop, Option.map_some, hw']
  have husers : SameUsers w w' := by
    obtain ⟨hnext, hclients, hservptr, hmembership, husernode, hchannel⟩ := hsame.sameUsers
    subst hw'
    exact ⟨hnext, hclients, hservptr, hmembership, husernode, hchannel⟩
  refine ⟨w', { s with invites := iv, invited := iv', channels := s.channels.erase c }, hrun, ?_, rfl, rfl, husers⟩
  subst hw'
  refine ⟨?_, ?_, ?_, ?_⟩
  · exact { hv.drawn with
      channels := hchannels
      channelData := fun q hq => (delete_data v.node v.globalChannelList c q).trans
        (hv.drawn.channelData q (List.mem_of_mem_erase hq)) }
  · exact { hv.bounded with channels := fun q hq => hv.bounded.channels q (List.mem_of_mem_erase hq) }
  · refine { hv.tied with
      alive := hkeep
      populated := fun q hq => ?_
      table := fun q => ?_
      tableNodup := hv.tied.tableNodup.erase c }
    · refine Or.inl ((hv.tied.populated q (hother.mp hq).2).resolve_right fun heq => ?_)
      exact (hother.mp hq).1 (Option.some.inj heq).symm
    · exact (hv.tied.tableNodup.mem_erase_iff).trans ((and_congr_right fun _ => hv.tied.table q).trans hother.symm)
  · refine { hv.asked with alive := fun q k hk => hother.mpr ⟨?_, hv.asked.alive q k hk⟩ }
    rintro rfl
    dsimp only at hk
    rw [hnone] at hk
    exact absurd hk List.not_mem_nil

/-- A channel is destroyed if it has no members. -/
theorem destroyEmpty_inv (h : ∀ fresh, s.members c ≠ [] ∨ fresh = some c → Inv w s half fresh) (hc : c ∈ s.channels) :
    ∃ w' s', (if (w.members c).length ≤ 0 then destroyChannel w c else some w) = some w' ∧ Inv w' s' half none ∧
      s'.members = s.members ∧ s'.chans = s.chans ∧ SameUsers w w' := by
  have hlength := ((h (some c) (Or.inr rfl)).drawn.members.listed c).length
  by_cases hempty : s.members c = []
  · rw [hempty] at hlength
    rw [hlength, if_pos (by simp)]
    exact destroyChannel_inv (h _ (Or.inr rfl)) hc hempty
  · have hpos := List.length_pos_iff.mpr hempty
    rw [hlength, if_neg (by omega)]
    exact ⟨w, s, rfl, h none (Or.inl hempty), rfl, rfl, .refl w⟩

/-- A node that is on one list at most is deleted. -/
theorem mem_update_erase {on : Nat → List Nat} {o q x : Nat} (hnodup : (on o).Nodup) (hm : ∀ q, m ∈ on q → q = o) :
    x ∈ Function.update on o ((on o).erase m) q ↔ x ∈ on q ∧ x ≠ m := by
  by_cases hq : q = o
  · subst hq
    rw [Function.update_self, hnodup.mem_erase_iff, and_comm]
  · rw [Function.update_of_ne hq]
    refine ⟨fun hx => ⟨hx, ?_⟩, And.left⟩
    rintro rfl
    exact hq (hm q hx)

/-- A membership is left out of the members of its channel. -/
def Shape.leave (s : Shape) (c m : Nat) : Shape :=
  { s with
    members := Function.update s.members c ((s.members c).erase m)
    locals := Function.update s.locals c ((s.locals c).erase m) }

theorem Shape.mem_leave_members {q x : Nat} (h : Inv w s half none) (hm : m ∈ s.members c) :
    x ∈ (s.leave c m).members q ↔ x ∈ s.members q ∧ x ≠ m :=
  mem_update_erase (h.drawn.members.listed c).nodup fun q hq => h.drawn.members.apart q c m hq hm

theorem Shape.mem_leave_locals {q x : Nat} (h : Inv w s half none) (hm : m ∈ s.members c) :
    x ∈ (s.leave c m).locals q ↔ x ∈ s.locals q ∧ x ≠ m :=
  mem_update_erase (h.drawn.locals.listed c).nodup fun q hq =>
    h.drawn.members.apart q c m ((h.tied.locals q m).mp hq).1 hm

theorem Tied.leave (h : Tied w s half none)
    (hmembers : ∀ q x, x ∈ (s.leave c m).members q ↔ x ∈ s.members q ∧ x ≠ m)
    (hlocals : ∀ q x, x ∈ (s.leave c m).locals q ↔ x ∈ s.locals q ∧ x ≠ m)
    (hfresh : (s.leave c m).members c ≠ [] ∨ fresh = some c) :
    Tied w (s.leave c m) (fun x => x = m ∨ half x) fresh := by
  refine { h with
    owner := fun q x hx => h.owner q x ((hmembers q x).mp hx).1
    both := fun x hx => ?_
    locals := fun q x => ?_
    single := fun q x hx x' hx' => h.single q x ((hmembers q x).mp hx).1 x' ((hmembers q x').mp hx').1
    alive := fun q x hx => h.alive q x ((hmembers q x).mp hx).1
    populated := fun q hq => ?_
    isClient := fun q x hx => h.isClient q x ((hmembers q x).mp hx).1 }
  · rw [not_or] at hx
    rw [hmembers, and_iff_left hx.1]
    exact h.both x hx.2
  · rw [hlocals, hmembers, h.locals q x, and_right_comm]
  · by_cases hqc : q = c
    · subst hqc
      exact hfresh
    · have hkeep : (s.leave c m).members q = s.members q := Function.update_of_ne hqc _ _
      rw [hkeep]
      exact Or.inl ((h.populated q hq).resolve_right (Option.some_ne_none q).symm)

/-- A membership is off the lists of its channel, also where the client is not local and only one
    of the lists is changed. -/
theorem Inv.leave {a : Nodes} {b : Lists} (h : Inv w s half none) (hm : m ∈ s.members c)
    (hfamily : Family a b (s.leave c m).locals) (hdata : ∀ x, (a x).data = (w.locchannode x).data)
    (hfresh : (s.leave c m).members c ≠ [] ∨ fresh = some c) :
    Inv { w with
        channode := ((w.members c).delete w.channode m).1
        members := Function.update w.members c ((w.members c).delete w.channode m).2
        locchannode := a
        locmembers := b } (s.leave c m) (fun x => x = m ∨ half x) fresh := by
  have hmembers := fun q x => Shape.mem_leave_members h hm (q := q) (x := x)
  have hlocals := fun q x => Shape.mem_leave_locals h hm (q := q) (x := x)
  have htied := h.tied.leave hmembers hlocals hfresh
  refine ⟨?_, ?_, ?_, ?_⟩
  · exact { h.drawn with
      members := h.drawn.members.delete hm
      locals := hfamily
      memberData := fun q x hx => (delete_data w.channode (w.members c) m x).trans
        (h.drawn.memberData q x ((hmembers q x).mp hx).1)
      localData := fun q x hx => (hdata x).trans (h.drawn.localData q x ((hlocals q x).mp hx).1) }
  · exact { h.bounded with members := fun q x hx => h.bounded.members q x ((hmembers q x).mp hx).1 }
  · exact { htied with }
  · exact { h.asked with }

/-- A membership is taken off the lists of its channel. -/
theorem leaveChannel_inv (h : Inv w s half none) (hm : m ∈ s.members c) :
    ∃ w' s', leaveChannel w (w.membership m).clientP m = some w' ∧ Inv w' s' (fun x => x = m ∨ half x) none ∧
      (∀ q x, x ∈ s'.members q ↔ x ∈ s.members q ∧ x ≠ m) ∧ s'.chans = s.chans ∧ SameUsers w w' := by
  have hlocal := h.tied.servptr _ (h.tied.isClient c m hm)
  have hc : c ∈ (s.leave c m).channels := h.tied.alive c m hm
  -- both ways of leaving end alike
  have hend : ∀ v, (∀ fresh, (s.leave c m).members c ≠ [] ∨ fresh = some c →
      Inv v (s.leave c m) (fun x => x = m ∨ half x) fresh) → SameUsers w v →
      ∃ w' s', (if (v.members c).length ≤ 0 then destroyChannel v c else some v) = some w' ∧
        Inv w' s' (fun x => x = m ∨ half x) none ∧ (∀ q x, x ∈ s'.members q ↔ x ∈ s.members q ∧ x ≠ m) ∧
        s'.chans = s.chans ∧ SameUsers w w' := by
    intro v hv husers
    obtain ⟨w', s', hrun, hinv, hmembers, hchans, husers'⟩ := destroyEmpty_inv hv hc
    refine ⟨w', s', hrun, hinv, fun q x => ?_, hchans, husers.trans husers'⟩
    rw [hmembers]
    exact Shape.mem_leave_members h hm
  unfold leaveChannel
  rw [h.tied.owner c m hm]
  dsimp only
  by_cases hme : w.servptr (w.membership m).clientP = me
  · have hmlocal : m ∈ s.locals c := (h.tied.locals c m).mpr ⟨hm, hlocal.mp hme⟩
    rw [if_pos hme]
    refine hend _ (fun fresh hfresh => ?_) ⟨rfl, rfl, rfl, rfl, rfl, rfl⟩
    exact h.leave hm (h.drawn.locals.delete hmlocal) (delete_data w.locchannode _ m) hfresh
  · have hmlocal : m ∉ s.locals c := fun hmem => hme (hlocal.mpr ((h.tied.locals c m).mp hmem).2)
    have hkeep : (s.leave c m).locals = s.locals := by
      unfold Shape.leave
      dsimp only
      rw [List.erase_of_not_mem hmlocal, Function.update_eq_self]
    rw [if_neg hme]
    refine hend _ (fun fresh hfresh => ?_) ⟨rfl, rfl, rfl, rfl, rfl, rfl⟩
    exact h.leave hm (hkeep ▸ h.drawn.locals) (fun _ => rfl) hfresh

end Leaving

end Bluebox.Members
