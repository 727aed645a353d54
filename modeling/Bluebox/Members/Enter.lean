/-
  Bluebox.Members.Enter

  Clients enter channels: by `JOIN`, by `SJOIN`, and by the `JOIN` of another server.
-/
import Bluebox.Members.Leave

namespace Bluebox.Members

open Bluebox.Lib
open Bluebox.Chan (Client Sjoin allocateChannel lookupName locChannelLen channelLen checkChannelName isBanned)

section Enter

variable {w w' w'' : World} {s : Shape} {half half' : Nat → Prop} {fresh : Option Nat} {c u m : Nat}

-- ============================================================================
-- Memberships
-- ============================================================================

/-- The one node whose data meets a test. -/
theorem find?_data {xs : List Nat} {mem : Nodes} {q : Nat → Bool} (hdata : ∀ x ∈ xs, (mem x).data = x)
    (honly : ∀ x ∈ xs, ∀ y ∈ xs, q x = true → q y = true → x = y) :
    (xs.find? fun ptr => q (mem ptr).data).map (fun ptr => (mem ptr).data) = some m ↔ m ∈ xs ∧ q m = true := by
  rw [Option.map_eq_some_iff]
  constructor
  · rintro ⟨x, hfind, rfl⟩
    have hx := List.mem_of_find?_eq_some hfind
    have hq := List.find?_some hfind
    rw [hdata x hx] at hq ⊢
    exact ⟨hx, hq⟩
  · rintro ⟨hm, hq⟩
    cases hfind : xs.find? fun ptr => q (mem ptr).data with
    | none =>
      refine absurd ?_ (List.find?_eq_none.mp hfind m hm)
      rw [hdata m hm]
      exact hq
    | some x =>
      have hx := List.mem_of_find?_eq_some hfind
      have hqx := List.find?_some hfind
      rw [hdata x hx] at hqx
      obtain rfl := honly x hx m hm hqx hq
      exact ⟨x, rfl, hdata x hx⟩

/-- Either list finds the membership of a client in a channel. -/
theorem findChannelMembership_eq (h : Inv w s whole fresh) (c u : Nat) :
    ∃ r, findChannelMembership w c u = some r ∧
      ∀ m, r = some m ↔ m ∈ s.members c ∧ (w.membership m).clientP = u := by
  have hchans : ∀ x, x ∈ s.chans u ∧ (w.membership x).chptr = c ↔ x ∈ s.members c ∧ (w.membership x).clientP = u := by
    intro x
    constructor
    · rintro ⟨hx, rfl⟩
      have hu := h.tied.user u x hx
      exact ⟨(h.tied.both x id).mpr (hu.symm ▸ hx), hu⟩
    · rintro ⟨hx, rfl⟩
      have hc := h.tied.owner c x hx
      exact ⟨(h.tied.both x id).mp (hc.symm ▸ hx), hc⟩
  unfold findChannelMembership
  by_cases huser : w.isClient u = true
  · rw [huser, Bool.not_true, if_neg Bool.false_ne_true]
    split
    · rw [(h.drawn.members.listed c).search_eq
        (length_le_of_lt (h.drawn.members.listed c).nodup (h.bounded.members c)), Option.map_some]
      refine ⟨_, rfl, fun m => ?_⟩
      rw [find?_data (q := fun x => (w.membership x).clientP == u) (h.drawn.memberData c) ?_, beq_iff_eq]
      intro x hx y hy hxu hyu
      exact h.tied.single c x hx y hy ((beq_iff_eq.mp hxu).trans (beq_iff_eq.mp hyu).symm)
    · rw [(h.drawn.chans.listed u).search_eq
        (length_le_of_lt (h.drawn.chans.listed u).nodup (h.bounded.chans u)), Option.map_some]
      refine ⟨_, rfl, fun m => ?_⟩
      rw [find?_data (q := fun x => (w.membership x).chptr == c) (h.drawn.chanData u) ?_, beq_iff_eq]
      · exact hchans m
      · intro x hx y hy hxc hyc
        obtain ⟨hx, hxu⟩ := (hchans x).mp ⟨hx, beq_iff_eq.mp hxc⟩
        obtain ⟨hy, hyu⟩ := (hchans y).mp ⟨hy, beq_iff_eq.mp hyc⟩
        exact h.tied.single c x hx y hy (hxu.trans hyu.symm)
  · rw [Bool.not_eq_true] at huser
    rw [huser, Bool.not_false, if_pos rfl]
    refine ⟨none, rfl, fun m => iff_of_false (Option.some_ne_none m).symm ?_⟩
    rintro ⟨hm, rfl⟩
    have hyes := h.tied.isClient c m hm
    rw [huser] at hyes
    exact absurd hyes Bool.false_ne_true

/-- A membership is made: it is on the lists of the channel and of the client. -/
def Shape.enter (s : Shape) (c u m : Nat) (my : Bool) : Shape :=
  { s with
    members := Function.update s.members c (m :: s.members c)
    locals := if my then Function.update s.locals c (m :: s.locals c) else s.locals
    chans := Function.update s.chans u (m :: s.chans u) }

theorem mem_update_cons {on : Nat → List Nat} {o q x : Nat} :
    x ∈ Function.update on o (m :: on o) q ↔ x = m ∧ q = o ∨ x ∈ on q := by
  by_cases hq : q = o
  · subst hq
    rw [Function.update_self, List.mem_cons, and_iff_left rfl]
  · rw [Function.update_of_ne hq]
    exact ⟨Or.inr, fun h => h.resolve_left fun h => hq h.2⟩

theorem Tied.enter (h : Tied w s whole fresh) (hfresh : fresh = none ∨ fresh = some c) (hc : c ∈ s.channels)
    (hu : w.isClient u = true) (hnot : ∀ m ∈ s.members c, (w.membership m).clientP ≠ u)
    (hnew : (∀ q, m ∉ s.members q) ∧ ∀ v, m ∉ s.chans v) (flags : UInt8) :
    Tied { w with membership := Function.update w.membership m ⟨c, u, flags⟩ } (s.enter c u m (w.myClient u)) whole
      none := by
  have hself : Function.update w.membership m ⟨c, u, flags⟩ m = ⟨c, u, flags⟩ := Function.update_self _ _ _
  have hother : ∀ {x}, x ≠ m → Function.update w.membership m ⟨c, u, flags⟩ x = w.membership x :=
    fun {x} hx => Function.update_of_ne hx _ _
  have hold : ∀ {q x}, x ∈ s.members q → x ≠ m := fun {q x} hx => ne_of_mem_of_not_mem hx (hnew.1 q)
  have hold' : ∀ {v x}, x ∈ s.chans v → x ≠ m := fun {v x} hx => ne_of_mem_of_not_mem hx (hnew.2 v)
  have hmembers : ∀ q x, x ∈ (s.enter c u m (w.myClient u)).members q ↔ x = m ∧ q = c ∨ x ∈ s.members q :=
    fun q x => mem_update_cons
  have hchans : ∀ v x, x ∈ (s.enter c u m (w.myClient u)).chans v ↔ x = m ∧ v = u ∨ x ∈ s.chans v :=
    fun v x => mem_update_cons
  have hlocals : ∀ q x, x ∈ (s.enter c u m (w.myClient u)).locals q ↔
      (x = m ∧ q = c) ∧ w.myClient u = true ∨ x ∈ s.locals q := by
    intro q x
    unfold Shape.enter
    dsimp only
    cases w.myClient u with
    | true => rw [if_pos rfl, mem_update_cons, and_iff_left rfl]
    | false => simp
  refine { h with
    owner := fun q x hx => ?_
    user := fun v x hx => ?_
    both := fun x _ => ?_
    locals := fun q x => ?_
    single := fun q x hx y hy heq => ?_
    alive := fun q x hx => ?_
    populated := fun q hq => ?_
    isClient := fun q x hx => ?_
    chanClient := fun v x hx => ?_ }
  · rcases (hmembers q x).mp hx with ⟨rfl, rfl⟩ | hx
    · dsimp only
      rw [hself]
    · dsimp only
      rw [hother (hold hx)]
      exact h.owner q x hx
  · rcases (hchans v x).mp hx with ⟨rfl, rfl⟩ | hx
    · dsimp only
      rw [hself]
    · dsimp only
      rw [hother (hold' hx)]
      exact h.user v x hx
  · rw [hmembers, hchans]
    dsimp only
    by_cases hxm : x = m
    · rw [hxm, hself]
      exact iff_of_true (Or.inl ⟨rfl, rfl⟩) (Or.inl ⟨rfl, rfl⟩)
    · rw [hother hxm, or_iff_right fun hx => hxm hx.1, or_iff_right fun hx => hxm hx.1]
      exact h.both x id
  · rw [hlocals, hmembers]
    dsimp only
    by_cases hxm : x = m
    · rw [hxm, hself, or_iff_left (hnew.1 q), or_iff_left fun hx => hnew.1 q ((h.locals q m).mp hx).1]
      rfl
    · rw [hother hxm, or_iff_right fun hx => hxm hx.1.1, or_iff_right fun hx => hxm hx.1]
      exact h.locals q x
  · dsimp only at heq
    rcases (hmembers q x).mp hx with ⟨rfl, rfl⟩ | hx'
    · rcases (hmembers q y).mp hy with ⟨rfl, -⟩ | hy'
      · rfl
      · rw [hself, hother (hold hy')] at heq
        exact absurd heq.symm (hnot y hy')
    · rcases (hmembers q y).mp hy with ⟨rfl, rfl⟩ | hy'
      · rw [hself, hother (hold hx')] at heq
        exact absurd heq (hnot x hx')
      · rw [hother (hold hx'), hother (hold hy')] at heq
        exact h.single q x hx' y hy' heq
  · rcases (hmembers q x).mp hx with ⟨-, rfl⟩ | hx
    · exact hc
    · exact h.alive q x hx
  · refine Or.inl fun hnil => ?_
    have hnone : ∀ x, x ∉ (s.enter c u m (w.myClient u)).members q := fun x hx => by
      rw [hnil] at hx
      exact absurd hx List.not_mem_nil
    rcases h.populated q hq with hne | hsome
    · obtain ⟨x, hx⟩ := List.exists_mem_of_ne_nil _ hne
      exact hnone x ((hmembers q x).mpr (Or.inr hx))
    · rcases hfresh with rfl | rfl
      · exact Option.some_ne_none q hsome.symm
      · exact hnone m ((hmembers q m).mpr (Or.inl ⟨rfl, (Option.some.inj hsome).symm⟩))
  · rcases (hmembers q x).mp hx with ⟨rfl, -⟩ | hx
    · dsimp only
      rw [hself]
      exact hu
    · dsimp only
      rw [hother (hold hx)]
      exact h.isClient q x hx
  · rcases (hchans v x).mp hx with ⟨-, rfl⟩ | hx
    · exact hu
    · exact h.chanClient v x hx

/-- A client enters a channel that it is not in. -/
theorem addUserToChannel_inv (h : Inv w s whole fresh) (hfresh : fresh = none ∨ fresh = some c) (hc : c ∈ s.channels)
    (hu : w.isClient u = true) (hnot : ∀ m ∈ s.members c, (w.membership m).clientP ≠ u) (flags : UInt8) :
    Inv (addUserToChannel w c u flags) (s.enter c u w.next (w.myClient u)) whole none := by
  have hnext : ∀ q, w.next ∉ s.members q := fun q hq => absurd (h.bounded.members q _ hq) (lt_irrefl _)
  have hnext' : ∀ v, w.next ∉ s.chans v := fun v hv => absurd (h.bounded.chans v _ hv) (lt_irrefl _)
  have hlocal : ∀ q, w.next ∉ s.locals q := fun q hq => hnext q ((h.tied.locals q _).mp hq).1
  have htied := h.tied.enter hfresh hc hu hnot ⟨hnext, hnext'⟩ flags
  -- the data of a node is its membership, on either list
  have hdata : ∀ {mem : Nodes} {on : Nat → List Nat} (list : DlinkList Nat) (o q : Nat),
      (∀ q, ∀ x ∈ on q, (mem x).data = x) → ∀ x ∈ Function.update on o (w.next :: on o) q,
        ((list.add mem w.next w.next).1 x).data = x := by
    intro mem on list o q hmem x hx
    rw [add_data]
    rcases mem_update_cons.mp hx with ⟨rfl, -⟩ | hx
    · rw [if_pos rfl]
    · split
      · next heq => exact heq.symm
      · exact hmem q x hx
  have hmore : Bounded { w with next := w.next + 1 } s := h.bounded.more (Nat.le_succ _) rfl
  have hlt : ∀ {on : Nat → List Nat} (o q : Nat), (∀ q, ∀ x ∈ on q, x < w.next) →
      ∀ x ∈ Function.update on o (w.next :: on o) q, x < w.next + 1 := by
    intro on o q hon x hx
    rcases mem_update_cons.mp hx with ⟨rfl, -⟩ | hx
    · exact Nat.lt_succ_self _
    · exact Nat.lt_succ_of_lt (hon q x hx)
  have hinv : ∀ (a : Nodes) (b : Lists), Family a b (s.enter c u w.next (w.myClient u)).locals →
      (∀ q, ∀ x ∈ (s.enter c u w.next (w.myClient u)).locals q, (a x).data = x) →
      Inv { w with
          next := w.next + 1
          membership := Function.update w.membership w.next ⟨c, u, flags⟩
          usernode := ((w.channel u).add w.usernode w.next w.next).1
          channel := Function.update w.channel u ((w.channel u).add w.usernode w.next w.next).2
          channode := ((w.members c).add w.channode w.next w.next).1
          members := Function.update w.members c ((w.members c).add w.channode w.next w.next).2
          locchannode := a
          locmembers := b } (s.enter c u w.next (w.myClient u)) whole none := by
    intro a b hfamily hlocaldata
    refine ⟨?_, ?_, ?_, ?_⟩
    · exact { h.drawn with
        members := h.drawn.members.add hnext c w.next
        chans := h.drawn.chans.add hnext' u w.next
        locals := hfamily
        memberData := fun q => hdata (w.members c) c q h.drawn.memberData
        chanData := fun v => hdata (w.channel u) u v h.drawn.chanData
        localData := hlocaldata }
    · exact { hmore with
        members := fun q => hlt c q h.bounded.members
        chans := fun v => hlt u v h.bounded.chans }
    · exact { htied with }
    · exact { h.asked with }
  unfold addUserToChannel
  by_cases hmy : w.myClient u = true
  · rw [if_pos hmy]
    have heq : (s.enter c u w.next (w.myClient u)).locals = Function.update s.locals c (w.next :: s.locals c) := by
      unfold Shape.enter
      rw [if_pos hmy]
    refine hinv _ _ ?_ ?_
    · rw [heq]
      exact h.drawn.locals.add hlocal c w.next
    · rw [heq]
      exact fun q => hdata (w.locmembers c) c q h.drawn.localData
  · rw [if_neg hmy]
    have heq : (s.enter c u w.next (w.myClient u)).locals = s.locals := by
      unfold Shape.enter
      rw [if_neg hmy]
    refine hinv _ _ ?_ ?_
    · rw [heq]
      exact h.drawn.locals
    · rw [heq]
      exact h.drawn.localData

-- ============================================================================
-- Channels
-- ============================================================================

/-- A command works on a channel, which may be new. -/
structure At (w : World) (s : Shape) (c : Nat) (isnew : Bool) : Prop where
  inv : Inv w s whole (if isnew then some c else none)
  mem : c ∈ s.channels
  empty : isnew = true → s.members c = []

/-- Modes and bans are not on these lists. -/
theorem Inv.chan (h : Inv w s half fresh) (f : Nat → Chan.Channel) : Inv { w with chan := f } s half fresh :=
  ⟨{ h.drawn with }, { h.bounded with }, { h.tied with }, { h.asked with }⟩

theorem At.chan {isnew : Bool} (h : At w s c isnew) (f : Nat → Chan.Channel) : At { w with chan := f } s c isnew :=
  ⟨h.inv.chan f, h.mem, h.empty⟩

theorem At.of_lookup {name : Bytes} (h : Inv w s whole none) (hfind : w.lookup name = some c) : At w s c false where
  inv := h
  mem := (h.tied.table c).mp (List.mem_of_find?_eq_some hfind)
  empty := fun hno => absurd hno Bool.false_ne_true

theorem At.of_findChannel {name : Bytes} (h : Inv w s whole none) (hfind : findChannel w name = some c) :
    At w s c false := by
  unfold findChannel at hfind
  split at hfind
  · exact absurd hfind.symm (Option.some_ne_none c)
  · exact .of_lookup h hfind

/-- A new channel has no members. -/
theorem newChannel_inv (h : Inv w s whole none) (f : Nat → Chan.Channel) :
    At { w with
        next := w.next + 1
        chan := f
        node := (w.globalChannelList.add w.node w.next w.next).1
        globalChannelList := (w.globalChannelList.add w.node w.next w.next).2
        channelTable := w.next :: w.channelTable } { s with channels := w.next :: s.channels } w.next true := by
  have hout : w.next ∉ s.channels := fun hmem => absurd (h.bounded.channels _ hmem) (lt_irrefl _)
  have hempty : s.members w.next = [] :=
    List.eq_nil_iff_forall_not_mem.mpr fun x hx => hout (h.tied.alive _ x hx)
  refine ⟨⟨?_, ?_, ?_, ?_⟩, List.mem_cons_self, fun _ => hempty⟩
  · exact { h.drawn with
      channels := h.drawn.channels.add hout w.next
      channelData := fun q hq => by
        rw [add_data]
        split
        · next heq => exact heq.symm
        · next hne => exact h.drawn.channelData q ((List.mem_cons.mp hq).resolve_left hne) }
  · have hmore : Bounded { w with next := w.next + 1 } s := h.bounded.more (Nat.le_succ _) rfl
    exact { hmore with
      channels := fun q hq => (List.mem_cons.mp hq).elim (fun heq => heq ▸ Nat.lt_succ_self _) (hmore.channels q) }
  · exact { h.tied with
      alive := fun q x hx => List.mem_cons_of_mem _ (h.tied.alive q x hx)
      populated := fun q hq => by
        rcases List.mem_cons.mp hq with rfl | hq
        · exact Or.inr rfl
        · exact Or.inl ((h.tied.populated q hq).resolve_right (Option.some_ne_none q).symm)
      table := fun q => by rw [List.mem_cons, List.mem_cons, h.tied.table]
      tableNodup := List.nodup_cons.mpr ⟨fun hmem => hout ((h.tied.table _).mp hmem), h.tied.tableNodup⟩ }
  · exact { h.asked with alive := fun q x hx => List.mem_cons_of_mem _ (h.asked.alive q x hx) }

theorem getOrCreateChannel_inv {name : Bytes} {now : Int} {isnew : Bool} (h : Inv w s whole none)
    (hrun : getOrCreateChannel w name now = some (w', c, isnew)) :
    ∃ s', At w' s' c isnew ∧ SameClients w w' ∧ (w.lookup (lookupName name) = none → isnew = true) ∧
      (isnew = true → w'.chan c = allocateChannel (lookupName name) now) := by
  unfold getOrCreateChannel at hrun
  split at hrun
  · exact absurd hrun.symm (Option.some_ne_none _)
  · cases hfind : w.lookup (lookupName name) with
    | some q =>
      rw [hfind] at hrun
      obtain ⟨rfl, rfl, rfl⟩ := by simpa using hrun
      exact ⟨s, .of_lookup h hfind, .refl w, fun hno => absurd hno (Option.some_ne_none q),
        fun hno => absurd hno Bool.false_ne_true⟩
    | none =>
      rw [hfind] at hrun
      obtain ⟨rfl, rfl, rfl⟩ := by simpa using hrun
      exact ⟨_, newChannel_inv h _, ⟨rfl, rfl⟩, fun _ => rfl, fun _ => Function.update_self _ _ _⟩

/-- A client enters the channel. -/
theorem At.enter {isnew : Bool} (h : At w s c isnew) (hu : w.isClient u = true)
    (hnot : ∀ m ∈ s.members c, (w.membership m).clientP ≠ u) (flags : UInt8) :
    At (addUserToChannel w c u flags) (s.enter c u w.next (w.myClient u)) c false where
  inv := by
    refine addUserToChannel_inv h.inv ?_ h.mem hu hnot flags
    cases isnew with
    | false => exact Or.inl rfl
    | true => exact Or.inr rfl
  mem := h.mem
  empty := fun hno => absurd hno Bool.false_ne_true

theorem addUserToChannel_sameClients (w : World) (c u : Nat) (flags : UInt8) :
    SameClients w (addUserToChannel w c u flags) := by
  unfold addUserToChannel
  dsimp only
  split
  · exact ⟨rfl, rfl⟩
  · exact ⟨rfl, rfl⟩

/-- The status of members is changed. -/
theorem Inv.flags {f : Nat → Membership} (h : Inv w s half fresh)
    (hchptr : ∀ x, (f x).chptr = (w.membership x).chptr) (hclient : ∀ x, (f x).clientP = (w.membership x).clientP) :
    Inv { w with membership := f } s half fresh := by
  refine ⟨{ h.drawn with }, { h.bounded with }, ?_, { h.asked with }⟩
  exact { h.tied with
    owner := fun c x hx => (hchptr x).trans (h.tied.owner c x hx)
    user := fun v x hx => (hclient x).trans (h.tied.user v x hx)
    both := fun x hx => by
      dsimp only
      rw [hchptr, hclient]
      exact h.tied.both x hx
    locals := fun c x => by
      dsimp only
      rw [hclient]
      exact h.tied.locals c x
    single := fun c x hx y hy heq => by
      dsimp only at heq
      rw [hclient, hclient] at heq
      exact h.tied.single c x hx y hy heq
    isClient := fun c x hx => by
      dsimp only
      rw [hclient]
      exact h.tied.isClient c x hx }

theorem update_flags (f : Nat → Membership) (x : Nat) (flags : UInt8) (y : Nat) :
    (Function.update f x { f x with flags := flags } y).chptr = (f y).chptr ∧
      (Function.update f x { f x with flags := flags } y).clientP = (f y).clientP := by
  by_cases hyx : y = x
  · subst hyx
    rw [Function.update_self]
    exact ⟨rfl, rfl⟩
  · rw [Function.update_of_ne hyx]
    exact ⟨rfl, rfl⟩

theorem removeOurModes_inv (h : Inv w s half fresh) (c : Nat) :
    ∃ w', removeOurModes w c = some w' ∧ Inv w' s half fresh ∧ SameClients w w' := by
  suffices hloop : ∃ w', removeOurModes w c = some w' ∧ [] <:+ s.members c ∧ Inv w' s half fresh ∧
      SameClients w w' by
    obtain ⟨w', hrun, -, hinv⟩ := hloop
    exact ⟨w', hrun, hinv⟩
  unfold removeOurModes
  rw [(h.drawn.members.listed c).head]
  refine foreachSafe_rule (I := fun xs v => xs <:+ s.members c ∧ Inv v s half fresh ∧ SameClients w v) ?_ ?_ ?_ ?_
  · rintro x xs v ⟨⟨l, hl⟩, hinv, -⟩
    have hlisted := hinv.drawn.members.listed c
    rw [← hl] at hlisted
    exact hlisted.around.2.1
  · rintro x xs v ⟨hsuffix, hinv, hsame⟩
    exact ⟨_, rfl, (List.suffix_cons x xs).trans hsuffix, hinv.flags (fun y => (update_flags _ _ _ y).1)
      (fun y => (update_flags _ _ _ y).2), hsame.clients, hsame.servptr⟩
  · exact length_le_of_lt (h.drawn.members.listed c).nodup (h.bounded.members c)
  · exact ⟨List.suffix_refl _, h, .refl w⟩

end Enter

end Bluebox.Members
