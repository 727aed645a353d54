/-
  Bluebox.Members.Leave

  Clients leave one channel or all of them, and exit.
-/
import Bluebox.Members.Shape

namespace Bluebox.Members

open Bluebox.Lib
open Bluebox.Chan (Client)

section Leave

variable {w w' w'' : World} {s : Shape} {half half' : Nat → Prop} {fresh : Option Nat} {c u m : Nat}

/-- The clients are the same. -/
structure SameClients (w w' : World) : Prop where
  clients : w'.clients = w.clients
  servptr : w'.servptr = w.servptr

theorem SameClients.refl (w : World) : SameClients w w := ⟨rfl, rfl⟩

theorem SameClients.trans (h : SameClients w w') (h' : SameClients w' w'') : SameClients w w'' :=
  ⟨h'.clients.trans h.clients, h'.servptr.trans h.servptr⟩

theorem SameUsers.sameClients (h : SameUsers w w') : SameClients w w' := ⟨h.clients, h.servptr⟩

theorem SameButInvites.sameClients (h : SameButInvites w w') : SameClients w w' := h.sameUsers.sameClients

-- ============================================================================
-- Halves
-- ============================================================================

theorem Inv.mono (h : Inv w s half fresh) (hle : ∀ x, half x → half' x) : Inv w s half' fresh where
  drawn := h.drawn
  bounded := h.bounded
  tied := { h.tied with both := fun x hx => h.tied.both x fun hhalf => hx (hle x hhalf) }
  asked := h.asked

/-- What was half is on none of its lists now. -/
theorem Inv.settle (h : Inv w s half fresh)
    (hhalf : ∀ x, half x → (∀ q, x ∉ s.members q) ∧ ∀ v, x ∉ s.chans v) : Inv w s whole fresh where
  drawn := h.drawn
  bounded := h.bounded
  tied := { h.tied with
    both := fun x _ => by
      by_cases hx : half x
      · obtain ⟨hmembers, hchans⟩ := hhalf x hx
        exact iff_of_false (hmembers _) (hchans _)
      · exact h.tied.both x hx }
  asked := h.asked

-- ============================================================================
-- One channel
-- ============================================================================

/-- A membership of a client is off the list of the client. -/
theorem Inv.unlink (h : Inv w s whole none) (hm : m ∈ s.chans u) :
    Inv { w with
        usernode := ((w.channel u).delete w.usernode m).1
        channel := Function.update w.channel u ((w.channel u).delete w.usernode m).2 }
      { s with chans := Function.update s.chans u ((s.chans u).erase m) } (fun x => x = m) none := by
  have hchans : ∀ v x, x ∈ Function.update s.chans u ((s.chans u).erase m) v ↔ x ∈ s.chans v ∧ x ≠ m := fun v x =>
    mem_update_erase (h.drawn.chans.listed u).nodup fun v hv => h.drawn.chans.apart v u m hv hm
  refine ⟨?_, ?_, ?_, ?_⟩
  · exact { h.drawn with
      chans := h.drawn.chans.delete hm
      chanData := fun v x hx => (delete_data w.usernode (w.channel u) m x).trans
        (h.drawn.chanData v x ((hchans v x).mp hx).1) }
  · exact { h.bounded with chans := fun v x hx => h.bounded.chans v x ((hchans v x).mp hx).1 }
  · exact { h.tied with
      user := fun v x hx => h.tied.user v x ((hchans v x).mp hx).1
      chanClient := fun v x hx => h.tied.chanClient v x ((hchans v x).mp hx).1
      both := fun x hx => by
        rw [hchans, and_iff_left hx]
        exact h.tied.both x id }
  · exact { h.asked with }

theorem removeUserFromChannel_inv (h : Inv w s whole none) (hm : m ∈ s.chans u) :
    ∃ w' s', removeUserFromChannel w m = some w' ∧ Inv w' s' whole none ∧
      s'.chans = Function.update s.chans u ((s.chans u).erase m) ∧ SameClients w w' := by
  have hu := h.tied.user u m hm
  have hmem : m ∈ s.members (w.membership m).chptr := (h.tied.both m id).mpr (hu.symm ▸ hm)
  obtain ⟨w', s', hrun, hinv, hmembers, hchans, husers⟩ := leaveChannel_inv (h.unlink hm) hmem
  refine ⟨w', s', ?_, hinv.settle fun x hx => ?_, hchans, husers.clients, husers.servptr⟩
  · unfold removeUserFromChannel
    dsimp only at hrun ⊢
    rw [hu] at hrun ⊢
    exact hrun
  · obtain rfl : x = m := hx.elim id id
    refine ⟨fun q hq => ((hmembers q x).mp hq).2 rfl, fun v hv => ?_⟩
    rw [hchans] at hv
    refine ((mem_update_erase (h.drawn.chans.listed u).nodup fun v hv => ?_).mp hv).2 rfl
    exact h.drawn.chans.apart v u x hv hm

/-- `JOIN 0`: the client is in no channel any more. -/
theorem doJoin0_inv (h : Inv w s whole none) (u : Nat) :
    ∃ w' s', doJoin0 w u = some w' ∧ Inv w' s' whole none ∧ s'.chans u = [] ∧ SameClients w w' := by
  suffices hloop : ∃ w', doJoin0 w u = some w' ∧ ∃ t, Inv w' t whole none ∧ t.chans u = [] ∧ SameClients w w' by
    obtain ⟨w', hrun, t, hinv⟩ := hloop
    exact ⟨w', t, hrun, hinv⟩
  refine whileHead_rule (I := fun xs v => ∃ t, Inv v t whole none ∧ t.chans u = xs ∧ SameClients w v) ?_ ?_ ?_
    ⟨s, h, rfl, .refl w⟩
  · rintro xs v ⟨t, hinv, rfl, -⟩
    exact (hinv.drawn.chans.listed u).head
  · rintro x xs v ⟨t, hinv, hxs, hsame⟩
    have hx : x ∈ t.chans u := hxs ▸ List.mem_cons_self
    obtain ⟨w', t', hrun, hinv', hchans, hsame'⟩ := removeUserFromChannel_inv hinv hx
    refine ⟨w', ?_, t', hinv', ?_, hsame.trans hsame'⟩
    · rw [hinv.drawn.chanData u x hx]
      exact hrun
    · rw [hchans, Function.update_self, hxs, List.erase_cons_head]
  · exact length_le_of_lt (h.drawn.chans.listed u).nodup (h.bounded.chans u)

-- ============================================================================
-- All channels
-- ============================================================================

/-- The list of a client is set to zero when none of it is in a channel any more. -/
theorem Inv.reset (h : Inv w s half fresh) (hhalf : ∀ x, half x → x ∈ s.chans u)
    (hleft : ∀ x ∈ s.chans u, ∀ q, x ∉ s.members q) :
    Inv { w with channel := Function.update w.channel u DlinkList.empty }
      { s with chans := Function.update s.chans u [] } whole fresh := by
  have hchans : ∀ v x, x ∈ Function.update s.chans u [] v → x ∈ s.chans v := by
    intro v x hx
    by_cases hv : v = u
    · subst hv
      rw [Function.update_self] at hx
      exact absurd hx List.not_mem_nil
    · rwa [Function.update_of_ne hv] at hx
  refine ⟨?_, ?_, ?_, ?_⟩
  · exact { h.drawn with
      chans := h.drawn.chans.reset u
      chanData := fun v x hx => h.drawn.chanData v x (hchans v x hx) }
  · exact { h.bounded with chans := fun v x hx => h.bounded.chans v x (hchans v x hx) }
  · refine { h.tied with
      user := fun v x hx => h.tied.user v x (hchans v x hx)
      chanClient := fun v x hx => h.tied.chanClient v x (hchans v x hx)
      both := fun x _ => ?_ }
    dsimp only
    by_cases hv : (w.membership x).clientP = u
    · rw [hv, Function.update_self]
      refine iff_of_false (fun hx => ?_) List.not_mem_nil
      by_cases hxu : x ∈ s.chans u
      · exact hleft x hxu _ hx
      · exact hxu (hv ▸ (h.tied.both x fun hh => hxu (hhalf x hh)).mp hx)
    · rw [Function.update_of_ne hv]
      exact h.tied.both x fun hh => hv (h.tied.user u x (hhalf x hh))
  · exact { h.asked with }

/-- The client is in no channel any more. -/
theorem removeUserFromChannels_inv (h : Inv w s whole none) (u : Nat) :
    ∃ w' s', removeUserFromChannels w u = some w' ∧ Inv w' s' whole none ∧ s'.chans u = [] ∧ SameClients w w' := by
  -- memberships that are done with are half
  suffices hloop : ∃ v, DlinkList.foreachSafe (fun w ptr => (w.usernode ptr).next)
      (fun ptr w => leaveChannel w u (w.usernode ptr).data) w.next (s.chans u).head? w = some v ∧
      ∃ t, Inv v t (fun x => x ∈ s.chans u ∧ x ∉ []) none ∧ t.chans = s.chans ∧ SameUsers w v ∧
        [] <:+ s.chans u ∧ ∀ x ∈ s.chans u, x ∉ [] → ∀ q, x ∉ t.members q by
    obtain ⟨v, hrun, t, hinv, hchans, husers, -, hleft⟩ := hloop
    have hinv' := hinv.reset (u := u) (fun x hx => hchans ▸ hx.1) (fun x hx => hleft x (hchans ▸ hx) List.not_mem_nil)
    refine ⟨_, _, ?_, hinv', Function.update_self _ _ _, husers.clients, husers.servptr⟩
    unfold removeUserFromChannels
    rw [(h.drawn.chans.listed u).head, hrun, Option.map_some]
  refine foreachSafe_rule (I := fun xs v => ∃ t, Inv v t (fun x => x ∈ s.chans u ∧ x ∉ xs) none ∧
    t.chans = s.chans ∧ SameUsers w v ∧ xs <:+ s.chans u ∧ ∀ x ∈ s.chans u, x ∉ xs → ∀ q, x ∉ t.members q) ?_ ?_ ?_ ?_
  · rintro x xs v ⟨t, hinv, hchans, -, ⟨l, hl⟩, -⟩
    have hlisted := hinv.drawn.chans.listed u
    rw [hchans, ← hl] at hlisted
    exact hlisted.around.2.1
  · rintro x xs v ⟨t, hinv, hchans, husers, hsuffix, hleft⟩
    have hx : x ∈ s.chans u := hsuffix.subset List.mem_cons_self
    have hnodup := (hsuffix.sublist.nodup (h.drawn.chans.listed u).nodup)
    have hu : (v.membership x).clientP = u := hinv.tied.user u x (hchans.symm ▸ hx)
    have hmem : x ∈ t.members (v.membership x).chptr := by
      refine (hinv.tied.both x fun hhalf => hhalf.2 List.mem_cons_self).mpr ?_
      rw [hu, hchans]
      exact hx
    obtain ⟨w', t', hrun, hinv', hmembers, hchans', husers'⟩ := leaveChannel_inv hinv hmem
    have hcases : ∀ y ∈ s.chans u, y ∉ xs → y = x ∨ y ∉ x :: xs := by
      intro y _ hy
      by_cases hyx : y = x
      · exact Or.inl hyx
      · exact Or.inr fun hmem => (List.mem_cons.mp hmem).elim hyx hy
    refine ⟨w', ?_, t', hinv'.mono ?_, hchans'.trans hchans, husers.trans husers', ?_, ?_⟩
    · rw [hinv.drawn.chanData u x (hchans.symm ▸ hx)]
      rw [hu] at hrun
      exact hrun
    · rintro y (rfl | ⟨hy, hnot⟩)
      · exact ⟨hx, (List.nodup_cons.mp hnodup).1⟩
      · exact ⟨hy, fun hmem => hnot (List.mem_cons_of_mem x hmem)⟩
    · exact (List.suffix_cons x xs).trans hsuffix
    · intro y hy hnot q hq
      obtain ⟨hq, hne⟩ := (hmembers q y).mp hq
      exact hleft y hy ((hcases y hy hnot).resolve_left hne) q hq
  · exact length_le_of_lt (h.drawn.chans.listed u).nodup (h.bounded.chans u)
  · exact ⟨s, h.mono fun x hx => hx.elim, rfl, .refl w, List.suffix_refl _, fun x hx hnot => absurd hx hnot⟩

-- ============================================================================
-- Clients that exit
-- ============================================================================

theorem SameClients.client (h : SameClients w w') (v : Nat) : w'.client v = w.client v := by
  unfold World.client World.server Chan.Server.client
  rw [h.clients]

theorem client_forget_of_ne {v : Nat} (hv : v ≠ u) : (w.forget u).client v = w.client v := by
  unfold World.client World.server Chan.Server.client World.forget
  dsimp only
  rw [List.find?_filter]
  refine congrArg (fun p => (w.clients.find? p).map (·.2)) (funext fun x => ?_)
  by_cases hx : x.1 = v
  · simp [hx, hv]
  · simp [hx]

theorem client_forget_self (w : World) (u : Nat) : (w.forget u).client u = none := by
  unfold World.client World.server Chan.Server.client World.forget
  dsimp only
  rw [List.find?_filter, Option.map_eq_none_iff, List.find?_eq_none]
  simp

theorem myClient_forget_of_ne {v : Nat} (hv : v ≠ u) : (w.forget u).myClient v = w.myClient v := by
  unfold World.myClient
  rw [client_forget_of_ne hv]

theorem isClient_forget_of_ne {v : Nat} (hv : v ≠ u) : (w.forget u).isClient v = w.isClient v := by
  unfold World.isClient
  rw [client_forget_of_ne hv]

/-- A client that is on no list can be forgotten. -/
theorem Inv.forget (h : Inv w s whole none) (hchans : s.chans u = []) (hinvited : s.invited u = []) :
    Inv (w.forget u) s whole none := by
  have hother : ∀ c, ∀ x ∈ s.members c, (w.membership x).clientP ≠ u := by
    intro c x hx heq
    have hmem := (h.tied.both x id).mp ((h.tied.owner c x hx).symm ▸ hx)
    rw [heq, hchans] at hmem
    exact absurd hmem List.not_mem_nil
  have hne : ∀ {on : Nat → List Nat} {v x : Nat}, on u = [] → x ∈ on v → v ≠ u := by
    rintro on v x hnil hx rfl
    rw [hnil] at hx
    exact absurd hx List.not_mem_nil
  refine ⟨?_, ?_, ?_, ?_⟩
  · exact { h.drawn with }
  · exact { h.bounded with
      clients := fun x hx => h.bounded.clients x (List.mem_filter.mp hx).1
      clientNodup := h.bounded.clientNodup.sublist (List.filter_sublist.map _) }
  · exact { h.tied with
      locals := fun c x => (h.tied.locals c x).trans <| and_congr_right fun hx => by
        rw [← myClient_forget_of_ne (hother c x hx)]
        rfl
      isClient := fun c x hx => (isClient_forget_of_ne (hother c x hx)).trans (h.tied.isClient c x hx)
      chanClient := fun v x hx => (isClient_forget_of_ne (hne hchans hx)).trans (h.tied.chanClient v x hx)
      servptr := fun v hv => by
        have hvu : v ≠ u := by
          rintro rfl
          unfold World.isClient at hv
          rw [client_forget_self] at hv
          exact absurd hv Bool.false_ne_true
        rw [isClient_forget_of_ne hvu] at hv
        rw [myClient_forget_of_ne hvu]
        exact h.tied.servptr v hv }
  · exact { h.asked with
      myClient := fun v x hx => (myClient_forget_of_ne (hne hinvited hx)).trans (h.asked.myClient v x hx) }

/-- A client that exits is invited to no channel any more. -/
theorem uninviteClient_inv (h : Inv w s half fresh) (u : Nat) :
    ∃ v, DlinkList.foreachSafe (fun w ptr => (w.invitedNode ptr).next)
        (fun ptr w => delInvite w (w.invitedNode ptr).data u) w.next (w.invited u).head w = some v ∧
      ∃ iv iv', Inv v { s with invites := iv, invited := iv' } half fresh ∧ iv' u = [] ∧ SameButInvites w v := by
  rw [(h.drawn.invited.listed u).head]
  refine uninviteLoop_inv (g := fun w ptr => ((w.invitedNode ptr).data, u)) (l := fun t => t.invited u) ?_ ?_ h
    (length_le_of_lt (h.drawn.invited.listed u).nodup (h.bounded.invited u))
  · intro v t x xs hv hxs
    have hlisted := hv.drawn.invited.listed u
    rw [hxs] at hlisted
    exact hlisted.head_next
  · intro v t x xs hv hxs
    have honce := hv.asked.invited u
    rw [hxs] at honce
    unfold Shape.uninvite
    dsimp only
    rw [Function.update_self, hxs]
    exact filter_head honce

theorem exitClient_inv {cl : Client} (h : Inv w s whole none) (hcl : w.client u = some cl) :
    ∃ w' s', exitClient w u cl = some w' ∧ Inv w' s' whole none := by
  have hmy : w.myClient u = cl.myClient := by
    unfold World.myClient
    rw [hcl, Option.any_some]
  have huser : w.isClient u = cl.isClient := by
    unfold World.isClient
    rw [hcl, Option.any_some]
  have hempty : cl.myClient = false → s.invited u = [] := fun hno =>
    List.eq_nil_iff_forall_not_mem.mpr fun x hx => by
      have hyes := h.asked.myClient u x hx
      rw [hmy, hno] at hyes
      exact absurd hyes Bool.false_ne_true
  unfold exitClient
  by_cases hserver : cl.isServer = true
  · rw [if_pos hserver, Option.map_some]
    have hno : cl.isClient = false := by simp [Client.isClient, hserver]
    have hchans : s.chans u = [] := List.eq_nil_iff_forall_not_mem.mpr fun x hx => by
      have hyes := h.tied.chanClient u x hx
      rw [huser, hno] at hyes
      exact absurd hyes Bool.false_ne_true
    exact ⟨_, _, rfl, h.forget hchans (hempty (by simp [Client.myClient, hno]))⟩
  · rw [if_neg hserver]
    obtain ⟨v, t, hrun, hinv, hchans, hsame⟩ := removeUserFromChannels_inv h u
    rw [hrun, Option.bind_some]
    by_cases hlocal : cl.myConnect = true
    · rw [if_pos hlocal]
      obtain ⟨v', hrun', iv, iv', hinv', hnone, -⟩ := uninviteClient_inv hinv u
      rw [hrun', Option.map_some]
      exact ⟨_, _, rfl, hinv'.forget hchans hnone⟩
    · rw [if_neg hlocal, Option.map_some]
      refine ⟨_, _, rfl, hinv.forget hchans ?_⟩
      refine List.eq_nil_iff_forall_not_mem.mpr fun x hx => ?_
      have hyes := hinv.asked.myClient u x hx
      unfold World.myClient at hyes
      rw [hsame.client, hcl, Option.any_some] at hyes
      simp [Client.myClient, hlocal] at hyes

end Leave

end Bluebox.Members
