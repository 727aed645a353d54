/-
  Bluebox.Netsplit.Split

  `exit_local_server` and `exit_remote_server` cut a server out of the network.

  What is left is the forest without the server: `Forest.prune`.
-/
import Bluebox.Netsplit.Exit

namespace Bluebox.Netsplit

open Bluebox.Lib

-- ============================================================================
-- Pruning
-- ============================================================================

theorem tops_prune (source : Nat) (f : Forest) :
    (f.prune source).tops = f.tops.filter fun x => x != source := by
  induction f with
  | nil => rfl
  | cons server us b n _ ihn =>
    rw [Forest.prune, Forest.tops]
    by_cases h : server = source
    · rw [if_pos h, ihn, List.filter_cons_of_neg (by rw [h, bne_self_eq_false]; exact Bool.false_ne_true)]
    · rw [if_neg h, Forest.tops, ihn]
      rw [List.filter_cons, if_pos (bne_iff_ne.mpr h)]

theorem order_prune_sublist (source : Nat) (f : Forest) : (f.prune source).order.Sublist f.order := by
  induction f with
  | nil => exact List.Sublist.refl _
  | cons server us b n ihb ihn =>
    rw [Forest.prune]
    by_cases h : server = source
    · rw [if_pos h, Forest.order]
      exact ihn.trans (List.sublist_append_right _ n.order)
    · rw [if_neg h, Forest.order, Forest.order]
      exact (((List.Sublist.refl us).append ihb).append (List.Sublist.refl [server])).append ihn

theorem servOrder_prune_subset (source : Nat) (f : Forest) :
    ∀ x, x ∈ (f.prune source).servOrder → x ∈ f.servOrder := by
  induction f with
  | nil =>
    intro x hx
    exact hx
  | cons server us b n ihb ihn =>
    intro x hx
    rw [Forest.servOrder, List.mem_append, List.mem_append]
    rw [Forest.prune] at hx
    by_cases h : server = source
    · rw [if_pos h] at hx
      exact Or.inr (ihn x hx)
    · rw [if_neg h, Forest.servOrder, List.mem_append, List.mem_append] at hx
      exact hx.imp (Or.imp_left (ihb x)) (ihn x)

theorem prune_of_not_mem {source : Nat} {f : Forest} (h : source ∉ f.servOrder) :
    f.prune source = f := by
  induction f with
  | nil => rfl
  | cons server us b n ihb ihn =>
    rw [Forest.servOrder, List.mem_append, List.mem_append, List.mem_singleton, not_or, not_or] at h
    rw [Forest.prune, if_neg (Ne.symm h.1.2), ihb h.1.1, ihn h.2]

variable {source root up me : Nat} {users : List Nat} {below f : Forest} {s s' : Net}

/-- A server in the forest splits it into the lost part and the rest. -/
theorem Forest.At.perm (h : Forest.At source users below root up f) (hnodup : f.order.Nodup) :
    f.order.Perm (lostOrder source users below ++ (f.prune source).order) := by
  induction h with
  | here root next =>
    have hnext : source ∉ next.servOrder := by
      intro hmem
      rw [Forest.order, List.nodup_append] at hnodup
      exact hnodup.2.2 source (List.mem_append_right _ (List.mem_singleton_self source)) source
        (next.servOrder_sublist.subset hmem) rfl
    rw [Forest.prune, if_pos rfl, prune_of_not_mem hnext]
    exact List.Perm.refl _
  | @inside root up server us b next hat ih =>
    have hmem : source ∈ b.order := b.servOrder_sublist.subset hat.source_mem
    rw [Forest.order, List.nodup_append] at hnodup
    obtain ⟨hhead, -, hdisjoint⟩ := hnodup
    have hnext : source ∉ next.servOrder := fun hn =>
      hdisjoint source (List.mem_append_left _ (List.mem_append_right _ hmem)) source
        (next.servOrder_sublist.subset hn) rfl
    rw [List.nodup_append] at hhead
    have hne : server ≠ source := fun heq =>
      hhead.2.2 source (List.mem_append_right _ hmem) server (List.mem_singleton_self server) heq.symm
    have hb := ih ((List.nodup_append.mp hhead.1).2.1)
    rw [Forest.prune, if_neg hne, prune_of_not_mem hnext, Forest.order, Forest.order,
      List.perm_iff_count]
    intro a
    have hcount := hb.count_eq a
    simp only [List.count_append] at hcount ⊢
    omega
  | @beside root up server us b n hat ih =>
    have hmem : source ∈ n.order := n.servOrder_sublist.subset hat.source_mem
    rw [Forest.order, List.nodup_append] at hnodup
    obtain ⟨-, hnodupNext, hdisjoint⟩ := hnodup
    have hb : source ∉ b.servOrder := fun hb =>
      hdisjoint source (List.mem_append_left _ (List.mem_append_right _
        (b.servOrder_sublist.subset hb))) source hmem rfl
    have hne : server ≠ source := fun heq =>
      hdisjoint server (List.mem_append_right _ (List.mem_singleton_self server)) source hmem heq
    have hn := ih hnodupNext
    rw [Forest.prune, if_neg hne, prune_of_not_mem hb, Forest.order, Forest.order,
      List.perm_iff_count]
    intro a
    have hcount := hn.count_eq a
    simp only [List.count_append] at hcount ⊢
    omega

theorem Forest.At.mem_prune (h : Forest.At source users below root up f) (hnodup : f.order.Nodup)
    {x : Nat} :
    x ∈ (f.prune source).order ↔ x ∈ f.order ∧ x ∉ lostOrder source users below := by
  have hperm := h.perm hnodup
  have hdisjoint := (List.nodup_append.mp (hperm.nodup_iff.mp hnodup)).2.2
  rw [hperm.mem_iff, List.mem_append]
  constructor
  · intro hx
    exact ⟨Or.inr hx, fun hlost => hdisjoint x hlost x hx rfl⟩
  · rintro ⟨hx | hx, hnot⟩
    · exact absurd hx hnot
    · exact hx

/-- The records hold the rest once the server is gone from their lists. -/
theorem Forest.Held.prune {f : Forest} : ∀ {root : Nat}, f.Held s root →
    (∀ x ∈ (f.prune source).order, s'.client x =
      { s.client x with servers := (s'.client x).servers }) →
    (∀ x ∈ (f.prune source).servOrder,
      (s'.client x).servers = (s.client x).servers.filter fun y => y != source) →
    (f.prune source).Held s' root := by
  induction f with
  | nil =>
    intro root _ _ _
    trivial
  | cons server us b n ihb ihn =>
    intro root h hsame hless
    obtain ⟨⟨hstatus, hup, husers, hservers, hall⟩, hbelow, hnext⟩ := h
    rw [Forest.prune] at hsame hless ⊢
    by_cases heq : server = source
    · rw [if_pos heq] at hsame hless ⊢
      exact ihn hnext hsame hless
    · rw [if_neg heq] at hsame hless ⊢
      have hserver := hsame server (mem_order.mpr (Or.inr (Or.inr (Or.inl rfl))))
      have hless' := hless server (by simp [Forest.servOrder])
      refine ⟨⟨?_, ?_, ?_, ?_, fun u hu => ?_⟩, ?_, ?_⟩
      · rw [hserver]
        exact hstatus
      · rw [hserver]
        exact hup
      · rw [hserver]
        exact husers
      · rw [hless', tops_prune, ← hservers]
      · rw [hsame u (mem_order.mpr (Or.inl hu))]
        exact hall u hu
      · exact ihb hbelow (fun x hx => hsame x (mem_order.mpr (Or.inr (Or.inl hx))))
          fun x hx => hless x (by simp [Forest.servOrder, hx])
      · exact ihn hnext (fun x hx => hsame x (mem_order.mpr (Or.inr (Or.inr (Or.inr hx)))))
          fun x hx => hless x (by simp [Forest.servOrder, hx])

theorem Forest.Held.tops_servptr {f : Forest} : f.Held s root →
    ∀ t ∈ f.tops, (s.client t).servptr = root ∧ (s.client t).status = .server := by
  induction f with
  | nil =>
    intro _ t ht
    cases ht
  | cons server us b n _ ihn =>
    intro h t ht
    obtain rfl | ht := List.mem_cons.mp ht
    · exact ⟨h.1.2.1, h.1.1⟩
    · exact ihn h.2.2 t ht

-- ============================================================================
-- The network
-- ============================================================================

/-- The network as this server holds it: the forest of the other servers, the lists of
    clients and servers, and the links, which are the servers at the top. -/
structure Net.Linked (s : Net) (me : Nat) (f : Forest) : Prop where
  me_status : (s.client me).status = .me
  me_servers : (s.client me).servers = f.tops
  held : f.Held s me
  nodup : (me :: ((s.client me).users ++ f.order)).Nodup
  clients_nodup : s.globalClientList.Nodup
  servers_nodup : s.globalServList.Nodup
  servers : ∀ x ∈ s.globalServList, x = me ∨ x ∈ f.servOrder
  links_nodup : s.servList.Nodup
  links : ∀ x, x ∈ s.servList ↔ x ∈ f.tops
  direct : ∀ x ∈ f.tops, (s.client x).link = x

/-- The order in which the lost clients are named to a server without `CAP_QS`: each of
    them once, the dependents of a server before it. -/
structure Net.LostInOrder (s : Net) (source : Nat) (lost : List Nat) : Prop where
  nodup : lost.Nodup
  mem_iff : ∀ x, x ∈ lost ↔ s.Behind source x
  sorted : ∀ x ∈ lost, (s.client x).status = .server → ∀ y, s.Behind x y → y ≠ x →
    [y, x].Sublist lost

/-- A server and all behind it have been cut out of the network. -/
structure Net.Split (s s' : Net) (me : Nat) (f : Forest) (clientP : Option Nat) (source : Nat) :
    Prop where
  linked : s'.Linked me (f.prune source)
  clients : ∀ x, x ∈ s'.globalClientList ↔ x ∈ s.globalClientList ∧ ¬ s.Behind source x
  servers : ∀ x, x ∈ s'.globalServList ↔ x ∈ s.globalServList ∧ ¬ s.Behind source x
  links : ∀ x, x ∈ s'.servList ↔ x ∈ s.servList ∧ ¬ s.Behind source x
  lists : ∀ y, y = me ∨ y ∈ f.servOrder → ∀ x,
    (x ∈ (s'.client y).users ↔ x ∈ (s.client y).users ∧ ¬ s.Behind source x) ∧
    (x ∈ (s'.client y).servers ↔ x ∈ (s.client y).servers ∧ ¬ s.Behind source x)
  told : ∃ lost comment comment1, s.LostInOrder source lost ∧
    ∀ dest ∈ s.servList, dest ≠ (s.client source).link →
      ¬ (some dest = clientP ∧ (s.client dest).capQs = true) →
      s'.sentTo dest = s.sentTo dest ++
        if (s.client dest).capQs then [.squit none (s.getId source dest) comment]
        else lost.map (s.lostMsg comment1 comment)

/-- What an exit leaves behind, in the terms of the walks. -/
structure Cut (s s' : Net) (clientP : Option Nat) (source up : Nat) (users : List Nat)
    (below : Forest) (comment comment1 : Bytes) : Prop where
  clients : s'.globalClientList = s.globalClientList.diff (lostOrder source users below)
  servers : s'.globalServList = s.globalServList.diff (below.servOrder ++ [source])
  links : s'.servList = s.servList.erase source
  emptied : ∀ x ∈ below.servOrder ++ [source], (s'.client x).users = [] ∧ (s'.client x).servers = []
  uplink : s'.client up = { s.client up with servers := (s.client up).servers.erase source }
  others : ∀ x, x ≠ up → x ∉ lostOrder source users below → s'.client x = s.client x
  told : ∀ dest ∈ s.servList, dest ≠ (s.client source).link →
    ¬ (some dest = clientP ∧ (s.client dest).capQs = true) → s'.sentTo dest = s.sentTo dest ++
      s.splitMsgs source (lostOrder source users below) comment1 comment dest

theorem Net.Linked.order_nodup (h : s.Linked me f) : (me :: f.order).Nodup :=
  h.nodup.sublist ((List.sublist_append_right (s.client me).users f.order).cons_cons me)

/-- A server lists other servers once each, and only those whose uplink it is. -/
theorem Net.Linked.servers_of (h : s.Linked me f) {y : Nat} (hy : y = me ∨ y ∈ f.servOrder) :
    (s.client y).servers.Nodup ∧ ∀ t ∈ (s.client y).servers, (s.client t).servptr = y := by
  obtain rfl | hy := hy
  · rw [h.me_servers]
    refine ⟨(List.nodup_cons.mp h.order_nodup).2.sublist f.tops_sublist, fun t ht => ?_⟩
    exact (h.held.tops_servptr t ht).1
  · obtain ⟨us, b, up, hat⟩ := Forest.exists_at me hy
    obtain ⟨hserver, hheld⟩ := hat.held h.held
    have hsub : b.order.Sublist (lostOrder y us b) :=
      (List.sublist_append_right us b.order).trans (List.sublist_append_left _ _)
    rw [hserver.2.2.2.1]
    refine ⟨(List.nodup_cons.mp h.order_nodup).2.sublist
      (b.tops_sublist.trans (hsub.trans hat.lost_sublist)), fun t ht => ?_⟩
    exact (hheld.tops_servptr t ht).1

section Cut

variable {clientP : Option Nat} {comment comment1 : Bytes}

theorem Cut.same (hcut : Cut s s' clientP source up users below comment comment1) {x : Nat}
    (hx : x ∉ lostOrder source users below) :
    s'.client x = { s.client x with servers := (s'.client x).servers } := by
  by_cases hup : x = up
  · rw [hup, hcut.uplink]
  · rw [hcut.others x hup hx]

theorem Cut.servers_eq (hcut : Cut s s' clientP source up users below comment comment1)
    (h : s.Linked me f) (hup : (s.client source).servptr = up) {y : Nat}
    (hy : y = me ∨ y ∈ f.servOrder) (hlost : y ∉ lostOrder source users below) :
    (s'.client y).servers = (s.client y).servers.filter fun x => x != source := by
  obtain ⟨hnodup, hservptr⟩ := h.servers_of hy
  by_cases heq : y = up
  · subst heq
    rw [hcut.uplink]
    exact hnodup.erase_eq_filter source
  · rw [hcut.others y heq hlost, List.filter_eq_self.mpr]
    intro t ht
    refine bne_iff_ne.mpr fun hts => heq ?_
    rw [← hservptr t ht, hts, hup]

theorem Net.Linked.not_client (h : s.Linked me f) {x : Nat} (hx : x = me ∨ x ∈ f.servOrder) :
    (s.client x).status ≠ .client := by
  obtain rfl | hx := hx
  · rw [h.me_status]
    exact Status.noConfusion
  · obtain ⟨us, b, up, hat⟩ := Forest.exists_at me hx
    rw [(hat.held h.held).1.1]
    exact Status.noConfusion

/-- A server of the network is lost just if it is behind the one that exits, or that one. -/
theorem Net.Linked.mem_lost_iff (h : s.Linked me f) (hat : Forest.At source users below me up f)
    {x : Nat} (hx : x = me ∨ x ∈ f.servOrder) :
    x ∈ lostOrder source users below ↔ x ∈ below.servOrder ++ [source] := by
  obtain ⟨hserver, hheld⟩ := hat.held h.held
  have hstatus := h.not_client hx
  rw [mem_lostOrder, List.mem_append, List.mem_singleton]
  constructor
  · rintro (hmem | hmem | hmem)
    · exact absurd (hserver.2.2.2.2 x hmem).1 hstatus
    · exact Or.inl ((hheld.server_or_client x hmem).resolve_right hstatus)
    · exact Or.inr hmem
  · exact fun hmem => Or.inr (hmem.imp_left fun hmem => below.servOrder_sublist.subset hmem)

/-- The rest of the network is again one. -/
theorem Cut.linked (hcut : Cut s s' clientP source up users below comment comment1)
    (h : s.Linked me f) (hat : Forest.At source users below me up f) :
    s'.Linked me (f.prune source) := by
  have hnodup := (List.nodup_cons.mp h.order_nodup).2
  obtain ⟨hserver, -⟩ := hat.held h.held
  have hme : me ∉ lostOrder source users below := fun hmem =>
    (List.nodup_cons.mp h.order_nodup).1 (hat.lost_sublist.subset hmem)
  have hsame : ∀ x ∈ (f.prune source).order,
      s'.client x = { s.client x with servers := (s'.client x).servers } := fun x hx =>
    hcut.same ((hat.mem_prune hnodup).mp hx).2
  have hmeUsers : (s'.client me).users = (s.client me).users := by rw [hcut.same hme]
  have hnodup' : (me :: ((s.client me).users ++ (f.prune source).order)).Nodup :=
    h.nodup.sublist (((List.Sublist.refl _).append (order_prune_sublist source f)).cons_cons me)
  have hheld' : (f.prune source).Held s' me := by
    refine h.held.prune hsame fun x hx => ?_
    have hx' := (f.prune source).servOrder_sublist.subset hx
    exact hcut.servers_eq h hserver.2.1 (Or.inr (servOrder_prune_subset source f x hx))
      ((hat.mem_prune hnodup).mp hx').2
  constructor
  · rw [hcut.same hme]
    exact h.me_status
  · rw [hcut.servers_eq h hserver.2.1 (Or.inl rfl) hme, h.me_servers, tops_prune]
  · exact hheld'
  · rw [hmeUsers]
    exact hnodup'
  · rw [hcut.clients]
    exact h.clients_nodup.diff
  · rw [hcut.servers]
    exact h.servers_nodup.diff
  · intro x hx
    rw [hcut.servers, h.servers_nodup.mem_sdiff_iff] at hx
    obtain rfl | hx' := h.servers x hx.1
    · exact Or.inl rfl
    · have hlost := mt (h.mem_lost_iff hat (Or.inr hx')).mp hx.2
      have hrest := (hat.mem_prune hnodup).mpr ⟨f.servOrder_sublist.subset hx', hlost⟩
      refine Or.inr ((hheld'.server_or_client x hrest).resolve_right ?_)
      rw [hcut.same hlost]
      exact h.not_client (Or.inr hx')
  · rw [hcut.links]
    exact h.links_nodup.erase source
  · intro x
    rw [hcut.links, h.links_nodup.mem_erase_iff, h.links, tops_prune, List.mem_filter, bne_iff_ne,
      and_comm]
  · intro x hx
    have hx' := (f.prune source).tops_sublist.subset hx
    rw [tops_prune] at hx
    rw [hsame x hx']
    exact h.direct x (List.mem_of_mem_filter hx)

/-- The lists of the servers, of those that stay and of those that are lost. -/
theorem Cut.lists (hcut : Cut s s' clientP source up users below comment comment1)
    (h : s.Linked me f) (hat : Forest.At source users below me up f) {y : Nat}
    (hy : y = me ∨ y ∈ f.servOrder) (x : Nat) :
    (x ∈ (s'.client y).users ↔
      x ∈ (s.client y).users ∧ x ∉ lostOrder source users below) ∧
    (x ∈ (s'.client y).servers ↔
      x ∈ (s.client y).servers ∧ x ∉ lostOrder source users below) := by
  have hnodup := (List.nodup_cons.mp h.order_nodup).2
  obtain ⟨hserver, hheld⟩ := hat.held h.held
  by_cases hlost : y ∈ lostOrder source users below
  · -- a lost server listed only lost clients, and lists nobody now
    obtain ⟨husers, hservers⟩ := hcut.emptied y ((h.mem_lost_iff hat hy).mp hlost)
    have hclosed : ∀ z, z ∈ (s.client y).users ∨ z ∈ (s.client y).servers →
        z ∈ lostOrder source users below := by
      intro z hz
      have hlists : s.Lists y z := ⟨h.not_client hy, hz⟩
      exact (behind_iff hserver hheld).mp (((behind_iff hserver hheld).mpr hlost).tail hlists)
    rw [husers, hservers]
    constructor
    · exact ⟨fun hx => absurd hx List.not_mem_nil, fun hx => absurd (hclosed x (Or.inl hx.1)) hx.2⟩
    · exact ⟨fun hx => absurd hx List.not_mem_nil, fun hx => absurd (hclosed x (Or.inr hx.1)) hx.2⟩
  · have hlinked := hcut.linked h hat
    have husers : (s'.client y).users = (s.client y).users := by rw [hcut.same hlost]
    have hservers := hcut.servers_eq h hserver.2.1 hy hlost
    -- what a server that stays lists is in the rest of the network
    have hrest : ∀ z, z ∈ (s'.client y).users ∨ z ∈ (s'.client y).servers →
        z ∉ lostOrder source users below := by
      intro z hz hmem
      obtain rfl | hy := hy
      · rw [hlinked.me_servers, husers] at hz
        obtain hz | hz := hz
        · have hdisjoint := (List.nodup_append.mp (List.nodup_cons.mp h.nodup).2).2.2
          exact hdisjoint z hz z (hat.lost_sublist.subset hmem) rfl
        · exact ((hat.mem_prune hnodup).mp ((f.prune source).tops_sublist.subset hz)).2 hmem
      · have hyrest := (hat.mem_prune hnodup).mpr ⟨f.servOrder_sublist.subset hy, hlost⟩
        have hstatus : (s'.client y).status ≠ .client := by
          rw [hcut.same hlost]
          exact h.not_client (Or.inr hy)
        have hzrest := hlinked.held.closed y hyrest z ⟨hstatus, hz⟩
        exact ((hat.mem_prune hnodup).mp hzrest).2 hmem
    constructor
    · rw [← husers]
      exact ⟨fun hx => ⟨hx, hrest x (Or.inl hx)⟩, fun hx => hx.1⟩
    · refine ⟨fun hx => ⟨?_, hrest x (Or.inr hx)⟩, fun hx => ?_⟩
      · rw [hservers] at hx
        exact List.mem_of_mem_filter hx
      · rw [hservers, List.mem_filter, bne_iff_ne]
        exact ⟨hx.1, fun heq => hx.2 (mem_lostOrder.mpr (Or.inr (Or.inr heq)))⟩

/-- What the walks leave is the network without the lost part. -/
theorem Cut.split (hcut : Cut s s' clientP source up users below comment comment1)
    (h : s.Linked me f) (hat : Forest.At source users below me up f) :
    s.Split s' me f clientP source := by
  have hnodup := (List.nodup_cons.mp h.order_nodup).2
  obtain ⟨hserver, hheld⟩ := hat.held h.held
  have hbehind : ∀ x, s.Behind source x ↔ x ∈ lostOrder source users below := fun x =>
    behind_iff hserver hheld
  constructor
  · exact hcut.linked h hat
  · intro x
    rw [hcut.clients, h.clients_nodup.mem_sdiff_iff, hbehind]
  · intro x
    rw [hcut.servers, h.servers_nodup.mem_sdiff_iff, hbehind]
    exact and_congr_right fun hx => not_congr (h.mem_lost_iff hat (h.servers x hx)).symm
  · intro x
    rw [hcut.links, h.links_nodup.mem_erase_iff, hbehind, and_comm]
    refine and_congr_right fun hx => not_congr ⟨fun heq => ?_, fun hmem => ?_⟩
    · exact mem_lostOrder.mpr (Or.inr (Or.inr heq))
    · -- a link behind the server can only be the server
      by_contra hne
      have htop : x ∈ (f.prune source).tops := by
        rw [tops_prune, List.mem_filter, bne_iff_ne]
        exact ⟨(h.links x).mp hx, hne⟩
      exact ((hat.mem_prune hnodup).mp ((f.prune source).tops_sublist.subset htop)).2 hmem
  · intro y hy x
    rw [hbehind]
    exact hcut.lists h hat hy x
  · refine ⟨lostOrder source users below, comment, comment1, ⟨?_, ?_, ?_⟩, hcut.told⟩
    · exact hnodup.sublist hat.lost_sublist
    · exact fun x => (hbehind x).symm
    · exact fun x hx hstatus y hy hne => lostOrder_sorted hserver hheld hx hstatus hy hne

end Cut

-- ============================================================================
-- The exits
-- ============================================================================

theorem sentTo_sendtoOne_of_ne {dest x : Nat} (h : x ≠ dest) (msg : Msg) :
    (s.sendtoOne x msg).sentTo dest = s.sentTo dest := by
  have hsent : (s.sendtoOne x msg).sent = s.sent ++ [(x, msg)] := rfl
  rw [sentTo_append hsent, List.filter_cons, if_neg (fun heq => h (beq_iff_eq.mp heq))]
  exact List.append_nil _

/-- The `SQUIT` upstream goes to the link the server is behind, and changes no list. -/
theorem sendUpstream_spec (s : Net) (clientP : Option Nat) (source fromP : Nat) (comment : Bytes) :
    (s.sendUpstream clientP source fromP comment).client = s.client ∧
    (s.sendUpstream clientP source fromP comment).globalClientList = s.globalClientList ∧
    (s.sendUpstream clientP source fromP comment).globalServList = s.globalServList ∧
    (s.sendUpstream clientP source fromP comment).servList = s.servList ∧
    ∀ dest, dest ≠ (s.client source).link →
      (s.sendUpstream clientP source fromP comment).sentTo dest = s.sentTo dest := by
  unfold Net.sendUpstream
  dsimp only
  split
  · exact ⟨rfl, rfl, rfl, rfl, fun dest hdest => sentTo_sendtoOne_of_ne (Ne.symm hdest) _⟩
  · exact ⟨rfl, rfl, rfl, rfl, fun _ _ => rfl⟩

theorem sentTo_setDead (s : Net) (x dest : Nat) : (s.setDead x).sentTo dest = s.sentTo dest := rfl

section Dropped

variable {clientP : Option Nat} {comment comment1 : Bytes} {s₁ : Net}

/-- The lost servers list nobody, whatever happens to other clients. -/
theorem Dropped.emptied_setDead (h : Dropped s s₁ clientP source users below comment comment1)
    (hsame : ∀ x ∈ below.servOrder ++ [source], s'.client x = s₁.client x) {x : Nat}
    (hx : x ∈ below.servOrder ++ [source]) :
    ((s'.setDead source).client x).users = [] ∧ ((s'.setDead source).client x).servers = [] := by
  unfold Net.setDead
  by_cases heq : x = source
  · rw [heq, modify_self, hsame source (heq ▸ hx), h.self]
    exact ⟨rfl, rfl⟩
  · rw [modify_of_ne heq, hsame x hx]
    rw [List.mem_append, List.mem_singleton] at hx
    exact h.emptied x (hx.resolve_right heq)

theorem servOrder_subset_lost {x : Nat} (h : x ∈ below.servOrder ++ [source]) :
    x ∈ lostOrder source users below := by
  rw [List.mem_append, List.mem_singleton] at h
  exact mem_lostOrder.mpr (Or.inr (h.imp_left fun h => below.servOrder_sublist.subset h))

/-- The rest of `exit_remote_server`, once the dependents are gone. -/
theorem Dropped.cut_remote (h : Dropped s s₁ clientP source users below comment comment1)
    (hservptr : (s.client source).servptr = up) (hup : up ∉ lostOrder source users below)
    (hremote : source ∉ s.servList) (hskip : ∀ dest ∈ s.servList, (s.client dest).status ≠ .me)
    (fromP : Nat) (squit : Bytes) :
    Cut s (((((s₁.unlinkServer source).removeGlobalServ source).sendUpstream clientP source fromP
      squit).removeClientFromList source).setDead source) clientP source up users below comment
      comment1 := by
  have hup' := mt mem_lostOrder.mpr hup
  rw [← or_assoc, ← List.mem_append, not_or] at hup'
  have hunlink : ∀ x, x ≠ up → (s₁.unlinkServer source).client x = s₁.client x := by
    intro x hx
    unfold Net.unlinkServer
    rw [h.self]
    exact modify_of_ne (fun heq => hx (heq.trans hservptr)) _
  obtain ⟨hclient₂, hclients₂, hservs₂, hlinks₂, hsent₂⟩ :=
    sendUpstream_spec ((s₁.unlinkServer source).removeGlobalServ source) clientP source fromP squit
  rw [client_removeGlobalServ, hunlink source (Ne.symm hup'.2), h.self] at hsent₂
  have hclient : ∀ x, x ≠ source → ((((((s₁.unlinkServer source).removeGlobalServ source).sendUpstream
      clientP source fromP squit).removeClientFromList source).setDead source).client x
      = (s₁.unlinkServer source).client x) := by
    intro x hx
    unfold Net.setDead
    rw [modify_of_ne hx, client_removeClientFromList, hclient₂, client_removeGlobalServ]
  constructor
  · show List.erase _ source = _
    rw [hclients₂, lostOrder, List.diff_append, List.diff_cons, List.diff_nil]
    exact congrArg (List.erase · source) h.clients
  · refine hservs₂.trans ?_
    rw [List.diff_append, List.diff_cons, List.diff_nil]
    exact congrArg (List.erase · source) h.servers
  · refine hlinks₂.trans (h.links.trans ?_)
    rw [List.erase_of_not_mem hremote]
  · refine fun x hx => h.emptied_setDead (fun y hy => ?_) hx
    rw [client_removeClientFromList, hclient₂, client_removeGlobalServ]
    exact hunlink y fun heq => hup (heq ▸ servOrder_subset_lost hy)
  · rw [hclient up hup'.2]
    unfold Net.unlinkServer
    rw [h.self]
    show (s₁.modify (s.client source).servptr _).client up = _
    rw [hservptr, modify_self, h.others up hup'.2 hup'.1]
  · intro x hxup hx
    rw [mem_lostOrder, ← or_assoc, ← List.mem_append, not_or] at hx
    rw [hclient x hx.2, hunlink x hxup, h.others x hx.2 hx.1]
  · intro dest hdest hlink hclientP
    rw [sentTo_setDead]
    refine (hsent₂ dest hlink).trans (h.told dest hdest ?_)
    rintro (hme | hlink' | hskip')
    · exact hskip dest hdest hme
    · exact hlink hlink'
    · exact hclientP hskip'

end Dropped

theorem Net.Linked.link_status (h : s.Linked me f) {x : Nat} (hx : x ∈ s.servList) :
    (s.client x).status ≠ .me := by
  rw [(h.held.tops_servptr x ((h.links x).mp hx)).2]
  exact Status.noConfusion

theorem exitRemoteServer_cut (h : s.Linked me f) (hat : Forest.At source users below me up f)
    (hremote : source ∉ s.servList) {depth : Nat} (hdepth : f.depth ≤ depth) (clientP : Option Nat)
    (fromP : Nat) (comment : Bytes) : ∃ s' reason,
    s.exitRemoteServer depth clientP source fromP comment = some s' ∧
      Cut s s' clientP source up users below reason (s.splitComment source) := by
  obtain ⟨hserver, hheld⟩ := hat.held h.held
  have hnodup : (lostOrder source users below).Nodup :=
    (List.nodup_cons.mp h.order_nodup).2.sublist hat.lost_sublist
  have hnodup' : (source :: (users ++ below.order)).Nodup :=
    (List.perm_append_singleton source (users ++ below.order)).nodup_iff.mp hnodup
  obtain ⟨s₁, hs₁, hdropped⟩ := removeDependents_spec hserver hheld hnodup'
    (Nat.lt_of_lt_of_le hat.depth_lt hdepth) h.links_nodup clientP
    (if (s.client fromP).status = .client then byComment (s.client fromP).name comment else comment)
    (s.splitComment source)
  have hcut := hdropped.cut_remote hserver.2.1 (hat.up_not_lost h.order_nodup).1 hremote
    (fun dest hdest => h.link_status hdest) fromP comment
  exact ⟨_, _, congrArg (Option.map _) hs₁, hcut⟩

/-- `exit_local_server` up to `close_connection`. -/
theorem closeLink_spec (s : Net) (clientP : Option Nat) (source : Nat) (comment : Bytes) :
    (s.closeLink clientP source comment).client = (s.unlinkServer source).client ∧
    (s.closeLink clientP source comment).globalClientList = s.globalClientList ∧
    (s.closeLink clientP source comment).globalServList = s.globalServList.erase source ∧
    (s.closeLink clientP source comment).servList = s.servList.erase source ∧
    ∀ dest, dest ≠ source → (s.closeLink clientP source comment).sentTo dest = s.sentTo dest := by
  unfold Net.closeLink
  dsimp only
  split
  · refine ⟨rfl, rfl, rfl, rfl, fun dest hdest => ?_⟩
    exact sentTo_sendtoOne_of_ne (Ne.symm hdest) _
  · exact ⟨rfl, rfl, rfl, rfl, fun _ _ => rfl⟩

/-- The messages about a split do not depend on the lists of servers. -/
theorem splitMsgs_congr {s₁ : Net}
    (hsame : ∀ x, s₁.client x = { s.client x with servers := (s₁.client x).servers })
    (source : Nat) (lost : List Nat) (comment1 comment : Bytes) (dest : Nat) :
    s₁.splitMsgs source lost comment1 comment dest = s.splitMsgs source lost comment1 comment dest := by
  have hlost : s₁.lostMsg comment1 comment = s.lostMsg comment1 comment := by
    funext x
    unfold Net.lostMsg
    rw [hsame x]
  have hlink : (s₁.client dest).link = (s.client dest).link := by rw [hsame dest]
  unfold Net.splitMsgs Net.getId Client.useId
  rw [hlost, hlink, hsame dest, hsame source, hsame (s.client dest).link]

/-- Only the list of the uplink changes before the walks of `exit_local_server`. -/
theorem closeLink_client (hservptr : (s.client source).servptr = up) (clientP : Option Nat)
    (comment : Bytes) :
    (s.closeLink clientP source comment).client up
      = { s.client up with servers := (s.client up).servers.erase source } ∧
    ∀ x, x ≠ up → (s.closeLink clientP source comment).client x = s.client x := by
  rw [(closeLink_spec s clientP source comment).1]
  unfold Net.unlinkServer
  rw [hservptr]
  exact ⟨modify_self .., fun x hx => modify_of_ne hx _⟩

/-- The rest of `exit_local_server`, once the dependents are gone. -/
theorem Dropped.cut_local {s₁ : Net} {clientP : Option Nat} {reason comment comment1 : Bytes}
    (hdropped : Dropped (s.closeLink clientP source comment) s₁ clientP source users below reason
      comment1)
    (hservptr : (s.client source).servptr = up) (hup : up ∉ lostOrder source users below)
    (hlink : (s.client source).link = source)
    (hstatus : ∀ dest ∈ s.servList, (s.client dest).status ≠ .me) :
    Cut s ((s₁.removeClientFromList source).setDead source) clientP source up users below reason
      comment1 := by
  obtain ⟨-, hclients, hservs, hlinks, hsent⟩ := closeLink_spec s clientP source comment
  obtain ⟨hunlinkUp, hunlink⟩ := closeLink_client hservptr clientP comment
  have hup' := mt mem_lostOrder.mpr hup
  rw [← or_assoc, ← List.mem_append, not_or] at hup'
  constructor
  · show List.erase _ source = _
    rw [hdropped.clients, hclients, lostOrder, List.diff_append _ (users ++ below.order),
      List.diff_cons, List.diff_nil]
  · show s₁.globalServList = _
    rw [hdropped.servers, hservs, List.diff_append, List.diff_cons, List.diff_nil, List.diff_erase]
  · exact hdropped.links.trans hlinks
  · exact fun x hx => hdropped.emptied_setDead (fun y _ => rfl) hx
  · unfold Net.setDead
    rw [modify_of_ne hup'.2, client_removeClientFromList, hdropped.others up hup'.2 hup'.1, hunlinkUp]
  · intro x hxup hx
    rw [mem_lostOrder, ← or_assoc, ← List.mem_append, not_or] at hx
    unfold Net.setDead
    rw [modify_of_ne hx.2, client_removeClientFromList, hdropped.others x hx.2 hx.1, hunlink x hxup]
  · intro dest hdest hdestLink hclientP
    have hne : dest ≠ source := by
      rw [hlink] at hdestLink
      exact hdestLink
    have hdest₁ : dest ∈ (s.closeLink clientP source comment).servList := by
      rw [hlinks]
      exact (List.mem_erase_of_ne hne).mpr hdest
    have hsame : ∀ x, (s.closeLink clientP source comment).client x
        = { s.client x with servers := ((s.closeLink clientP source comment).client x).servers } := by
      intro x
      by_cases hx : x = up
      · rw [hx, hunlinkUp]
      · rw [hunlink x hx]
    have hskip : ¬ (s.closeLink clientP source comment).Skips clientP source dest := by
      unfold Net.Skips
      rw [hsame dest, hunlink source (Ne.symm hup'.2)]
      rintro (hme | hlink' | hskip')
      · exact hstatus dest hdest hme
      · exact hdestLink hlink'
      · exact hclientP hskip'
    rw [sentTo_setDead, ← splitMsgs_congr hsame, ← hsent dest hne]
    exact hdropped.told dest hdest₁ hskip

theorem exitLocalServer_cut (h : s.Linked me f) (hat : Forest.At source users below me up f)
    (hlocal : source ∈ s.servList) {depth : Nat} (hdepth : f.depth ≤ depth) (clientP : Option Nat)
    (fromP : Nat) (comment : Bytes) : ∃ s' reason,
    s.exitLocalServer depth clientP source fromP comment = some s' ∧
      Cut s s' clientP source up users below reason (s.splitComment source) := by
  obtain ⟨hserver, hheld⟩ := hat.held h.held
  have hnodup : (lostOrder source users below).Nodup :=
    (List.nodup_cons.mp h.order_nodup).2.sublist hat.lost_sublist
  have hnodup' : (source :: (users ++ below.order)).Nodup :=
    (List.perm_append_singleton source (users ++ below.order)).nodup_iff.mp hnodup
  obtain ⟨hup, -⟩ := hat.up_not_lost h.order_nodup
  obtain ⟨-, -, -, hlinks, -⟩ := closeLink_spec s clientP source comment
  have hlost : ∀ x ∈ lostOrder source users below,
      (s.closeLink clientP source comment).client x = s.client x := fun x hx =>
    (closeLink_client hserver.2.1 clientP comment).2 x fun heq => hup (heq ▸ hx)
  have hserver₁ : (s.closeLink clientP source comment).IsServer source up users below := by
    unfold Net.IsServer
    rw [hlost source (mem_lostOrder.mpr (Or.inr (Or.inr rfl)))]
    refine ⟨hserver.1, hserver.2.1, hserver.2.2.1, hserver.2.2.2.1, fun u hu => ?_⟩
    rw [hlost u (mem_lostOrder.mpr (Or.inl hu))]
    exact hserver.2.2.2.2 u hu
  have hheld₁ : below.Held (s.closeLink clientP source comment) source :=
    hheld.congr fun x hx => hlost x (mem_lostOrder.mpr (Or.inr (Or.inl hx)))
  obtain ⟨s₁, hs₁, hdropped⟩ := removeDependents_spec hserver₁ hheld₁ hnodup'
    (Nat.lt_of_lt_of_le hat.depth_lt hdepth) (hlinks ▸ h.links_nodup.erase source) clientP
    (if (s.client fromP).status = .client then
      byComment (s.client (if fromP = source then (s.client source).servptr else fromP)).name comment
      else comment)
    (s.splitComment source)
  have hcut := hdropped.cut_local hserver.2.1 hup (h.direct source ((h.links source).mp hlocal))
    fun dest hdest => h.link_status hdest
  exact ⟨_, _, congrArg (Option.map _) hs₁, hcut⟩

/-- The exit of a server, of a link or of one behind a link, cuts exactly it and what is
    behind it out of the network.  The walks need no more depth than the network has. -/
theorem exitServer_split (s : Net) (me : Nat) (f : Forest) (h : s.Linked me f) (source : Nat)
    (hsource : source ∈ f.servOrder) (depth : Nat) (hdepth : f.depth ≤ depth) (clientP : Option Nat)
    (fromP : Nat) (comment : Bytes) :
    (source ∈ s.servList → ∃ s', s.exitLocalServer depth clientP source fromP comment = some s' ∧
      s.Split s' me f clientP source) ∧
    (source ∉ s.servList → ∃ s', s.exitRemoteServer depth clientP source fromP comment = some s' ∧
      s.Split s' me f clientP source) := by
  obtain ⟨users, below, up, hat⟩ := Forest.exists_at me hsource
  constructor
  · intro hlocal
    obtain ⟨s', reason, hs', hcut⟩ := exitLocalServer_cut h hat hlocal hdepth clientP fromP comment
    exact ⟨s', hs', hcut.split h hat⟩
  · intro hremote
    obtain ⟨s', reason, hs', hcut⟩ := exitRemoteServer_cut h hat hremote hdepth clientP fromP comment
    exact ⟨s', hs', hcut.split h hat⟩

/-- A server or a user with nothing behind it. -/
def leafClient (name : Bytes) (status : Status) (servptr link : Nat) : Client where
  name := name
  id := []
  status := status
  servptr := servptr
  link := link
  users := []
  servers := []
  capQs := false
  capTs6 := false
  ioError := false
  killed := false
  dead := false
  closing := false

/-- Two links, one with a server behind it, and a user on each of the three. -/
def smallNet : Net where
  client
    | 0 => { leafClient [109] .me 0 0 with servers := [1, 2] }
    | 1 => { leafClient [97] .server 0 1 with users := [4] }
    | 2 => { leafClient [98] .server 0 2 with users := [5], servers := [3], capQs := true }
    | 3 => { leafClient [99] .server 2 2 with users := [6] }
    | 4 => leafClient [120] .client 1 1
    | 5 => leafClient [121] .client 2 2
    | 6 => leafClient [122] .client 3 2
    | _ => leafClient [] .client 0 0
  globalClientList := [6, 5, 4, 3, 2, 1, 0]
  globalServList := [3, 2, 1, 0]
  servList := [2, 1]
  sent := []

/-- The servers of `smallNet`. -/
def smallForest : Forest := .cons 1 [4] .nil (.cons 2 [5] (.cons 3 [6] .nil .nil) .nil)

theorem smallNet_linked : smallNet.Linked 0 smallForest := by
  constructor
  · rfl
  · rfl
  · simp [smallForest, Forest.Held, Forest.tops, smallNet, leafClient]
  · decide
  · decide
  · decide
  · simp [smallForest, Forest.servOrder, smallNet]
  · decide
  · simp [smallForest, Forest.tops, smallNet, or_comm]
  · simp [smallForest, Forest.tops, smallNet, leafClient]

theorem exitServer_split_small :
    (∃ s', smallNet.exitLocalServer 2 none 2 2 [] = some s' ∧
      smallNet.Split s' 0 smallForest none 2) ∧
    ∃ s', smallNet.exitRemoteServer 2 (some 2) 3 2 [] = some s' ∧
      smallNet.Split s' 0 smallForest (some 2) 3 :=
  ⟨(exitServer_split smallNet 0 smallForest smallNet_linked 2 (by decide) 2 (by decide) none 2 []).1
    (by decide),
   (exitServer_split smallNet 0 smallForest smallNet_linked 3 (by decide) 2 (by decide) (some 2) 2
    []).2 (by decide)⟩

end Bluebox.Netsplit
