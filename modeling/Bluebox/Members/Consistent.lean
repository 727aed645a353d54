/-
  Bluebox.Members.Consistent

  In every state that can be reached, the lists of channels and clients agree: a member of a
  channel has the channel on its list, and the other way round, and so it is with invitations.
-/
import Bluebox.Members.Commands

namespace Bluebox.Members

open Bluebox.Lib
open Bluebox.Chan (Client)

section Consistent

variable {w w' : World} {s : Shape} {u : Nat} {cl : Client}

-- ============================================================================
-- New clients
-- ============================================================================

theorem client_addClient_of_ne {v server : Nat} (hv : v ≠ w.next) : (addClient w cl server).client v = w.client v := by
  unfold World.client World.server Chan.Server.client addClient
  dsimp only
  rw [List.find?_cons_of_neg (by simpa using hv.symm)]

theorem client_addClient_self (w : World) (cl : Client) (server : Nat) :
    (addClient w cl server).client w.next = some cl := by
  unfold World.client World.server Chan.Server.client addClient
  dsimp only
  rw [List.find?_cons_of_pos (by simp)]
  rfl

theorem lt_of_client (h : Inv w s whole none) (hu : w.client u = some cl) : me < u ∧ u < w.next := by
  obtain ⟨x, hfind, -⟩ := Option.map_eq_some_iff.mp hu
  have heq : x.1 = u := by simpa using List.find?_some hfind
  exact heq ▸ h.bounded.clients x (List.mem_of_find?_eq_some hfind)

theorem lt_of_isClient (h : Inv w s whole none) (hu : w.isClient u = true) : u < w.next := by
  unfold World.isClient at hu
  cases hcl : w.client u with
  | none =>
    rw [hcl] at hu
    exact absurd hu Bool.false_ne_true
  | some cl => exact (lt_of_client h hcl).2

theorem isClient_addClient {v : Nat} (hv : v ≠ w.next) (cl : Client) (server : Nat) :
    (addClient w cl server).isClient v = w.isClient v := by
  unfold World.isClient
  rw [client_addClient_of_ne hv]

theorem myClient_addClient {v : Nat} (hv : v ≠ w.next) (cl : Client) (server : Nat) :
    (addClient w cl server).myClient v = w.myClient v := by
  unfold World.myClient
  rw [client_addClient_of_ne hv]

/-- A new client, which is behind this server exactly if it is local. -/
theorem addClient_inv {server : Nat} (h : Inv w s whole none)
    (hserver : cl.isClient = true → (server = me ↔ cl.myClient = true)) :
    Inv (addClient w cl server) s whole none := by
  have hold : ∀ {v}, w.isClient v = true → v ≠ w.next := fun {v} hv => (lt_of_isClient h hv).ne
  have hmy : ∀ {v}, w.myClient v = true → v < w.next := by
    intro v hv
    unfold World.myClient at hv
    cases hcl : w.client v with
    | none =>
      rw [hcl] at hv
      exact absurd hv Bool.false_ne_true
    | some cl => exact (lt_of_client h hcl).2
  refine ⟨?_, ?_, ?_, ?_⟩
  · exact { h.drawn with }
  · have hmore : Bounded { w with next := w.next + 1 } s := h.bounded.more (Nat.le_succ _) rfl
    exact { hmore with
      clients := fun x hx => by
        rcases List.mem_cons.mp hx with rfl | hx
        · exact ⟨h.bounded.me_lt, Nat.lt_succ_self _⟩
        · exact hmore.clients x hx
      clientNodup := by
        refine List.nodup_cons.mpr ⟨fun hmem => ?_, h.bounded.clientNodup⟩
        obtain ⟨x, hx, heq⟩ := List.mem_map.mp hmem
        exact absurd (h.bounded.clients x hx).2 (heq ▸ lt_irrefl _) }
  · exact { h.tied with
      locals := fun c x => (h.tied.locals c x).trans <| and_congr_right fun hx => by
        rw [← myClient_addClient (hold (h.tied.isClient c x hx)) cl server]
        rfl
      isClient := fun c x hx => (isClient_addClient (hold (h.tied.isClient c x hx)) cl server).trans
        (h.tied.isClient c x hx)
      chanClient := fun v x hx => (isClient_addClient (hold (h.tied.chanClient v x hx)) cl server).trans
        (h.tied.chanClient v x hx)
      servptr := fun v hv => by
        by_cases hvn : v = w.next
        · subst hvn
          unfold World.isClient at hv
          unfold World.myClient
          rw [client_addClient_self] at hv ⊢
          unfold addClient
          dsimp only
          rw [Function.update_self]
          exact hserver hv
        · rw [isClient_addClient hvn] at hv
          rw [myClient_addClient hvn]
          unfold addClient
          dsimp only
          rw [Function.update_of_ne hvn]
          exact h.tied.servptr v hv }
  · exact { h.asked with
      myClient := fun v x hx => (myClient_addClient (hmy (h.asked.myClient v x hx)).ne cl server).trans
        (h.asked.myClient v x hx) }

/-- A client that exits as soon as it is there leaves nothing behind. -/
theorem exitClient_new (h : Inv w s whole none) (hserver : cl.isServer = false) (hremote : cl.myConnect = false)
    (server : Nat) : ∃ w', exitClient (addClient w cl server) w.next cl = some w' ∧ Inv w' s whole none := by
  have hnil : s.chans w.next = [] :=
    List.eq_nil_iff_forall_not_mem.mpr fun x hx => absurd (lt_of_isClient h (h.tied.chanClient _ x hx)) (lt_irrefl _)
  have hhead : (w.channel w.next).head = none := by
    rw [(h.drawn.chans.listed w.next).head, hnil]
    rfl
  obtain ⟨w', hw'⟩ : ∃ w', w' = { w with
      next := w.next + 1
      servptr := Function.update w.servptr w.next server
      channel := Function.update w.channel w.next DlinkList.empty } := ⟨_, rfl⟩
  have hclients : ((w.next, cl) :: w.clients).filter (fun x => x.1 != w.next) = w.clients := by
    rw [List.filter_cons_of_neg (by simp)]
    exact List.filter_eq_self.mpr fun x hx => by simpa using (h.bounded.clients x hx).2.ne
  refine ⟨w', ?_, ?_⟩
  · unfold exitClient removeUserFromChannels addClient World.forget
    rw [hserver, if_neg Bool.false_ne_true]
    dsimp only
    rw [hhead, foreachSafe_none, Option.map_some, Option.bind_some, hremote, if_neg Bool.false_ne_true, Option.map_some]
    dsimp only
    rw [hclients, hw']
  · subst hw'
    refine ⟨?_, ?_, ?_, { h.asked with }⟩
    · have hreset := h.drawn.chans.reset w.next
      rw [← hnil, Function.update_eq_self] at hreset
      exact { h.drawn with chans := hreset }
    · have hmore : Bounded { w with next := w.next + 1 } s := h.bounded.more (Nat.le_succ _) rfl
      exact { hmore with }
    · exact { h.tied with
        servptr := fun v hv => by
          dsimp only
          rw [Function.update_of_ne (lt_of_isClient h hv).ne]
          exact h.tied.servptr v hv }

theorem registerClient_inv {link server : Nat} (h : Inv w s whole none) (hlink : w.isLink link = true) (cl : Client) :
    ∃ w', registerClient w link server cl = some w' ∧ Inv w' s whole none := by
  have hme : link ≠ me := by
    unfold World.isLink at hlink
    cases hcl : w.client link with
    | none =>
      rw [hcl] at hlink
      exact absurd hlink Bool.false_ne_true
    | some up => exact (lt_of_client h hcl).1.ne'
  unfold registerClient
  dsimp only
  split
  · exact exitClient_new h rfl rfl server
  · next hfrom =>
    refine ⟨_, rfl, addClient_inv h fun _ => iff_of_false ?_ Bool.false_ne_true⟩
    rintro rfl
    refine hfrom fun heq => hme ?_
    rw [← heq]
    rfl

-- ============================================================================
-- Steps
-- ============================================================================

theorem client_of_isClient (hu : w.isClient u = true) : ∃ cl, w.client u = some cl := by
  unfold World.isClient at hu
  cases hcl : w.client u with
  | none =>
    rw [hcl] at hu
    exact absurd hu Bool.false_ne_true
  | some cl => exact ⟨cl, rfl⟩

theorem isClient_of_myClient (hu : w.myClient u = true) : w.isClient u = true := by
  unfold World.myClient at hu
  unfold World.isClient
  cases hcl : w.client u with
  | none =>
    rw [hcl] at hu
    exact absurd hu Bool.false_ne_true
  | some cl =>
    rw [hcl] at hu
    exact (Bool.and_eq_true_iff.mp hu).2

/-- The server keeps the lists in order, or crashes, which it does only where no invitation is
    allowed. -/
theorem act_inv (h : Inv w s whole none) (a : Settings × Action) (hcan : w.canHappen a.2 = true) :
    (∃ w' s', w.act a = some w' ∧ Inv w' s' whole none) ∨ w.act a = none ∧ a.1.maxChansPerUser ≤ 0 := by
  obtain ⟨cfg, action⟩ := a
  cases action with
  | register cl =>
    refine Or.inl ⟨_, s, rfl, addClient_inv h fun huser => iff_of_true rfl ?_⟩
    exact Bool.and_eq_true_iff.mpr ⟨rfl, huser⟩
  | connect cl => exact Or.inl ⟨_, s, rfl, addClient_inv h fun huser => absurd huser Bool.false_ne_true⟩
  | server uplink cl => exact Or.inl ⟨_, s, rfl, addClient_inv h fun huser => absurd huser Bool.false_ne_true⟩
  | introduce link server cl =>
    obtain ⟨w', hrun, hinv⟩ := registerClient_inv h (Bool.and_eq_true_iff.mp hcan).1 cl
    exact Or.inl ⟨w', s, hrun, hinv⟩
  | exit c =>
    unfold World.act
    cases hcl : w.client c with
    | none =>
      unfold World.canHappen at hcan
      dsimp only at hcan
      rw [hcl] at hcan
      exact absurd hcan Bool.false_ne_true
    | some cl =>
      dsimp only
      rw [hcl, Option.bind_some]
      exact Or.inl (exitClient_inv h hcl)
  | join c allowed creatable chanlist keys now =>
    have huser := isClient_of_myClient hcan
    obtain ⟨cl, hcl⟩ := client_of_isClient huser
    obtain ⟨w', s', hrun, hinv, -⟩ := mJoin_inv h huser cfg cl allowed creatable chanlist keys now
    refine Or.inl ⟨w', s', ?_, hinv⟩
    unfold World.act
    dsimp only
    rw [hcl, Option.bind_some, hrun]
  | joinZero c =>
    obtain ⟨w', s', hrun, hinv, -⟩ := doJoin0_inv h c
    exact Or.inl ⟨w', s', hrun, hinv⟩
  | remoteJoin c ts name now =>
    obtain ⟨w', s', hrun, hinv, -⟩ := msJoin_inv h (Bool.and_eq_true_iff.mp hcan).1 ts name now
    exact Or.inl ⟨w', s', hrun, hinv⟩
  | sjoin m now =>
    obtain ⟨w', s', hrun, hinv, -⟩ := msSjoin_inv h m now
    exact Or.inl ⟨w', s', hrun, hinv⟩
  | invite c user name =>
    obtain ⟨cl, hcl⟩ := client_of_isClient hcan
    unfold World.act
    dsimp only
    rw [hcl, Option.bind_some]
    refine (mInvite_inv h cfg c cl user name).imp_left ?_
    rintro ⟨w', s', hrun, hinv, -⟩
    exact ⟨w', s', hrun, hinv⟩

theorem step_inv {a : Settings × Action} (h : Inv w s whole none) (hstep : w.step a = some w') :
    ∃ s', Inv w' s' whole none := by
  unfold World.step at hstep
  split at hstep
  · next hcan =>
    rcases act_inv h a hcan with ⟨v, s', hrun, hinv⟩ | ⟨hnone, -⟩
    · obtain rfl := Option.some.inj (hrun.symm.trans hstep)
      exact ⟨s', hinv⟩
    · rw [hnone] at hstep
      exact absurd hstep.symm (Option.some_ne_none w')
  · exact absurd hstep.symm (Option.some_ne_none w')

theorem inv_of_reach (h : Reach World.step anyStep World.start w) : ∃ s, Inv w s whole none :=
  h.invariant (P := fun w => ∃ s, Inv w s whole none) ⟨_, inv_start⟩ fun _ _ _ ⟨_, hinv⟩ _ hstep => step_inv hinv hstep

/-- The server does not crash where a user may be in a channel. -/
theorem step_isSome {a : Settings × Action} (h : Reach World.step anyStep World.start w)
    (hcan : w.canHappen a.2 = true) (hmax : 0 < a.1.maxChansPerUser) : (w.step a).isSome = true := by
  obtain ⟨s, hinv⟩ := inv_of_reach h
  unfold World.step
  rw [if_pos hcan]
  rcases act_inv hinv a hcan with ⟨w', s', hrun, -⟩ | ⟨-, hle⟩
  · rw [hrun]
    rfl
  · exact absurd hmax (by omega)

-- ============================================================================
-- Lists that agree
-- ============================================================================

/-- The nodes in memory, and how the lists agree.  The data of the node of a membership is the
    membership, that of an invitation is who is invited, or where. -/
structure World.Consistent (w : World) (s : Shape) : Prop where
  drawn : Drawn w s
  only : ∀ s', Drawn w s' → s' = s
  member : ∀ c u m, m ∈ s.members c ∧ (w.membership m).clientP = u ↔ m ∈ s.chans u ∧ (w.membership m).chptr = c
  isLocal : ∀ c m, m ∈ s.locals c ↔ m ∈ s.members c ∧ w.myClient (w.membership m).clientP = true
  once : ∀ c, ((s.members c).map fun m => (w.membership m).clientP).Nodup
  populated : ∀ c ∈ s.channels, s.members c ≠ []
  invite : ∀ c u, u ∈ (s.invites c).map (fun k => (w.inviteNode k).data) ↔
    c ∈ (s.invited u).map fun k => (w.invitedNode k).data
  invitesOnce : ∀ c, ((s.invites c).map fun k => (w.inviteNode k).data).Nodup
  invitedOnce : ∀ u, ((s.invited u).map fun k => (w.invitedNode k).data).Nodup
  membersLength : ∀ c, (w.members c).length = (s.members c).length
  localsLength : ∀ c, (w.locmembers c).length = (s.locals c).length
  chansLength : ∀ u, (w.channel u).length = (s.chans u).length
  invitesLength : ∀ c, (w.invites c).length = (s.invites c).length
  invitedLength : ∀ u, (w.invited u).length = (s.invited u).length
  channelsLength : w.globalChannelList.length = s.channels.length

/-- The pointers say which nodes are on the lists. -/
theorem Drawn.unique {s' : Shape} (h : Drawn w s) (h' : Drawn w s') : s' = s := by
  refine Shape.ext (funext fun c => ?_) (funext fun c => ?_) (funext fun u => ?_) (funext fun c => ?_)
    (funext fun u => ?_) ?_
  · exact (h'.members.listed c).unique (h.members.listed c)
  · exact (h'.locals.listed c).unique (h.locals.listed c)
  · exact (h'.chans.listed u).unique (h.chans.listed u)
  · exact (h'.invites.listed c).unique (h.invites.listed c)
  · exact (h'.invited.listed u).unique (h.invited.listed u)
  · exact h'.channels.unique h.channels

theorem Tied.member (h : Tied w s whole none) (c u m : Nat) :
    m ∈ s.members c ∧ (w.membership m).clientP = u ↔ m ∈ s.chans u ∧ (w.membership m).chptr = c := by
  constructor
  · rintro ⟨hm, rfl⟩
    have hc := h.owner c m hm
    exact ⟨(h.both m id).mp (hc.symm ▸ hm), hc⟩
  · rintro ⟨hm, rfl⟩
    have hu := h.user u m hm
    exact ⟨(h.both m id).mpr (hu.symm ▸ hm), hu⟩

theorem Inv.consistent (h : Inv w s whole none) : w.Consistent s where
  drawn := h.drawn
  only _ h' := h.drawn.unique h'
  member := h.tied.member
  isLocal := h.tied.locals
  once c := (List.nodup_map_iff_inj_on (h.drawn.members.listed c).nodup).mpr fun m hm m' hm' => h.tied.single c m hm m' hm'
  populated c hc := (h.tied.populated c hc).resolve_right (Option.some_ne_none c).symm
  invite c u := by
    rw [List.mem_map, List.mem_map]
    exact h.asked.both c u
  invitesOnce := h.asked.invites
  invitedOnce := h.asked.invited
  membersLength c := (h.drawn.members.listed c).length
  localsLength c := (h.drawn.locals.listed c).length
  chansLength u := (h.drawn.chans.listed u).length
  invitesLength c := (h.drawn.invites.listed c).length
  invitedLength u := (h.drawn.invited.listed u).length
  channelsLength := h.drawn.channels.length

/-- In every state, the lists of channels and clients agree. -/
theorem lists_consistent (h : Reach World.step anyStep World.start w) : ∃ s, w.Consistent s := by
  obtain ⟨s, hinv⟩ := inv_of_reach h
  exact ⟨s, hinv.consistent⟩

end Consistent

/-- A user may be in two channels. -/
def settings : Settings where
  maxBans := 25
  useExcept := true
  useInvex := true
  useSslonly := false
  quietOnBan := true
  resv := fun _ => false
  storage := fun _ _ _ _ => false
  maxChansPerUser := 2
  inviteOpsOnly := true

def named (name : Bytes) : Client :=
  ⟨name, [], [], [], [], name, 0, [], false, false, false, false, false, false, false⟩

/-- `a` makes `#c` and `c` of another server comes with `+i`, then `a` invites `b`. -/
def visit : List Action :=
  [.register (named [97]), .register (named [98]), .connect (named [46]), .introduce 3 3 (named [99]),
    .join 1 (fun _ => true) (fun _ => true) [35, 99] [] 5,
    .sjoin ⟨3, [46], [53], [35, 99], [43, 105], [[64, 99]]⟩ 6,
    .invite 1 [98] [35, 99]]

def World.visited : World := (visit.map (settings, ·)).foldl (Reach.perform World.step) World.start

theorem lists_consistent_visited : (World.visited.members 5).length = 2 ∧ (World.visited.locmembers 5).length = 1 ∧
    (World.visited.invites 5).length = 1 ∧ (World.visited.invited 2).length = 1 ∧ ∃ s, World.visited.Consistent s :=
  ⟨by decide, by decide, by decide, by decide,
    lists_consistent (Reach.performed_all _ .init)⟩

end Bluebox.Members
