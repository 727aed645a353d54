/-
  Bluebox.Netsplit.Exit

  A netsplit removes exactly the lost part of the network.

  The lost clients are those behind the server that exits.  They are its part of the
  forest, so the walks of `Netsplit.Tree` remove them, and a server without `CAP_QS`
  hears of each of them once, of the dependents of a server before the server.
-/
import Bluebox.Netsplit.Tree

namespace Bluebox.Netsplit

open Bluebox.Lib

-- ============================================================================
-- A server in a forest
-- ============================================================================

/-- `source` is a server of the forest with these users and these servers behind it,
    and `up` is its uplink. -/
inductive Forest.At (source : Nat) (users : List Nat) (below : Forest) : Nat → Nat → Forest → Prop
  | here (root : Nat) (next : Forest) : At source users below root root (.cons source users below next)
  | inside {root up server : Nat} {us : List Nat} {b : Forest} (next : Forest) :
      At source users below server up b → At source users below root up (.cons server us b next)
  | beside {root up : Nat} (server : Nat) (us : List Nat) (b : Forest) {n : Forest} :
      At source users below root up n → At source users below root up (.cons server us b n)

/-- A server and its dependents, those first. -/
def lostOrder (source : Nat) (users : List Nat) (below : Forest) : List Nat :=
  users ++ below.order ++ [source]

theorem Forest.exists_at {source : Nat} {f : Forest} : ∀ root : Nat, source ∈ f.servOrder →
    ∃ users below up, Forest.At source users below root up f := by
  induction f with
  | nil =>
    intro root h
    cases h
  | cons server us b n ihb ihn =>
    intro root h
    rw [Forest.servOrder, List.mem_append, List.mem_append, List.mem_singleton] at h
    obtain (h | rfl) | h := h
    · obtain ⟨users, below, up, hat⟩ := ihb server h
      exact ⟨users, below, up, .inside n hat⟩
    · exact ⟨us, b, root, .here root n⟩
    · obtain ⟨users, below, up, hat⟩ := ihn root h
      exact ⟨users, below, up, .beside server us b hat⟩

variable {source root up : Nat} {users : List Nat} {below f : Forest} {s : Net}

theorem Forest.At.held (h : Forest.At source users below root up f) (hheld : f.Held s root) :
    s.IsServer source up users below ∧ below.Held s source := by
  induction h with
  | here root next => exact ⟨hheld.1, hheld.2.1⟩
  | inside next _ ih => exact ih hheld.2.1
  | beside server us b _ ih => exact ih hheld.2.2

theorem Forest.At.lost_sublist (h : Forest.At source users below root up f) :
    (lostOrder source users below).Sublist f.order := by
  induction h with
  | here root next => exact List.sublist_append_left _ next.order
  | @inside root up server us b next _ ih =>
    refine ih.trans ?_
    rw [Forest.order, List.append_assoc, List.append_assoc]
    exact (List.sublist_append_left b.order _).trans (List.sublist_append_right us _)
  | beside server us b _ ih => exact ih.trans (List.sublist_append_right _ _)

theorem Forest.At.source_mem (h : Forest.At source users below root up f) : source ∈ f.servOrder := by
  induction h with
  | here root next =>
    exact List.mem_append_left _ (List.mem_append_right _ (List.mem_singleton_self source))
  | inside next _ ih => exact List.mem_append_left _ (List.mem_append_left _ ih)
  | beside server us b _ ih => exact List.mem_append_right _ ih

theorem Forest.At.depth_lt (h : Forest.At source users below root up f) : below.depth < f.depth := by
  induction h with
  | here root next => exact Nat.lt_of_lt_of_le (Nat.lt_succ_self _) (Nat.le_max_left _ _)
  | inside next _ ih => exact Nat.lt_of_lt_of_le (Nat.lt_succ_of_lt ih) (Nat.le_max_left _ _)
  | beside server us b _ ih => exact Nat.lt_of_lt_of_le ih (Nat.le_max_right _ _)

/-- The uplink is no lost client. -/
theorem Forest.At.up_not_lost (h : Forest.At source users below root up f)
    (hnodup : (root :: f.order).Nodup) :
    up ∉ lostOrder source users below ∧ (up = root ∨ up ∈ f.servOrder) := by
  induction h with
  | here root next =>
    refine ⟨fun hmem => (List.nodup_cons.mp hnodup).1 ?_, Or.inl rfl⟩
    exact List.mem_append_left _ hmem
  | @inside root up server us b next hat ih =>
    have hnodup' : (server :: b.order).Nodup := by
      have hsub : (b.order ++ [server]).Sublist (Forest.cons server us b next).order := by
        rw [Forest.order, List.append_assoc us]
        exact (List.sublist_append_right us _).trans (List.sublist_append_left _ _)
      exact (List.perm_append_singleton server b.order).nodup_iff.mp
        ((List.nodup_cons.mp hnodup).2.sublist hsub)
    obtain ⟨hlost, rfl | hmem⟩ := ih hnodup'
    · exact ⟨hlost, Or.inr (by simp [Forest.servOrder])⟩
    · exact ⟨hlost, Or.inr (by simp [Forest.servOrder, hmem])⟩
  | beside server us b hat ih =>
    obtain ⟨hlost, rfl | hmem⟩ := ih (hnodup.sublist ((List.sublist_append_right _ _).cons_cons _))
    · exact ⟨hlost, Or.inl rfl⟩
    · exact ⟨hlost, Or.inr (by simp [Forest.servOrder, hmem])⟩

-- ============================================================================
-- Behind a server
-- ============================================================================

/-- A server lists a client. -/
def Net.Lists (s : Net) (x y : Nat) : Prop :=
  (s.client x).status ≠ .client ∧ (y ∈ (s.client x).users ∨ y ∈ (s.client x).servers)

/-- The clients behind a server, and the server itself. -/
def Net.Behind (s : Net) (source : Nat) : Nat → Prop := Relation.ReflTransGen s.Lists source

theorem mem_order {x : Nat} {server : Nat} {us : List Nat} {b n : Forest} :
    x ∈ (Forest.cons server us b n).order ↔ x ∈ us ∨ x ∈ b.order ∨ x = server ∨ x ∈ n.order := by
  rw [Forest.order, List.mem_append, List.mem_append, List.mem_append, List.mem_singleton, or_assoc,
    or_assoc]

/-- A forest is closed: its servers list only clients of it. -/
theorem Forest.Held.closed {f : Forest} : ∀ {up : Nat}, f.Held s up → ∀ x ∈ f.order, ∀ y,
    s.Lists x y → y ∈ f.order := by
  induction f with
  | nil =>
    intro up _ x hx
    cases hx
  | cons server us b n ihb ihn =>
    intro up h x hx y hlists
    obtain ⟨⟨-, -, husers, hservers, hall⟩, hbelow, hnext⟩ := h
    rw [mem_order] at hx ⊢
    obtain hx | hx | rfl | hx := hx
    · exact absurd (hall x hx).1 hlists.1
    · exact Or.inr (Or.inl (ihb hbelow x hx y hlists))
    · rw [Net.Lists, husers, hservers] at hlists
      obtain hy | hy := hlists.2
      · exact Or.inl hy
      · exact Or.inr (Or.inl ((b.servOrder_sublist).subset (b.tops_subset y hy)))
    · exact Or.inr (Or.inr (Or.inr (ihn hnext x hx y hlists)))

/-- Every client of a forest is behind one of its servers at the top. -/
theorem Forest.Held.reached {f : Forest} : ∀ {up : Nat}, f.Held s up → ∀ x ∈ f.order,
    ∃ t ∈ f.tops, s.Behind t x := by
  induction f with
  | nil =>
    intro up _ x hx
    cases hx
  | cons server us b n ihb ihn =>
    intro up h x hx
    obtain ⟨⟨hstatus, -, husers, hservers, -⟩, hbelow, hnext⟩ := h
    have hnot : (s.client server).status ≠ .client := by
      rw [hstatus]
      exact Status.noConfusion
    rw [mem_order] at hx
    obtain hx | hx | rfl | hx := hx
    · refine ⟨server, List.mem_cons_self, Relation.ReflTransGen.single ⟨hnot, Or.inl ?_⟩⟩
      rw [husers]
      exact hx
    · obtain ⟨t, ht, hbehind⟩ := ihb hbelow x hx
      refine ⟨server, List.mem_cons_self, Relation.ReflTransGen.head ⟨hnot, Or.inr ?_⟩ hbehind⟩
      rw [hservers]
      exact ht
    · exact ⟨x, List.mem_cons_self, Relation.ReflTransGen.refl⟩
    · obtain ⟨t, ht, hbehind⟩ := ihn hnext x hx
      exact ⟨t, List.mem_cons_of_mem server ht, hbehind⟩

theorem mem_lostOrder {x : Nat} :
    x ∈ lostOrder source users below ↔ x ∈ users ∨ x ∈ below.order ∨ x = source := by
  rw [lostOrder, List.mem_append, List.mem_append, List.mem_singleton, or_assoc]

/-- The lost clients are those behind the server. -/
theorem behind_iff (h : s.IsServer source up users below) (hheld : below.Held s source) {x : Nat} :
    s.Behind source x ↔ x ∈ lostOrder source users below := by
  obtain ⟨hstatus, -, husers, hservers, hall⟩ := h
  have hnot : (s.client source).status ≠ .client := by
    rw [hstatus]
    exact Status.noConfusion
  constructor
  · intro hbehind
    induction hbehind with
    | refl => exact mem_lostOrder.mpr (Or.inr (Or.inr rfl))
    | @tail y z _ hlists ih =>
      rw [mem_lostOrder] at ih ⊢
      obtain hy | hy | rfl := ih
      · exact absurd (hall y hy).1 hlists.1
      · exact Or.inr (Or.inl (hheld.closed y hy z hlists))
      · rw [Net.Lists, husers, hservers] at hlists
        obtain hz | hz := hlists.2
        · exact Or.inl hz
        · exact Or.inr (Or.inl ((below.servOrder_sublist).subset (below.tops_subset z hz)))
  · intro hx
    obtain hx | hx | rfl := mem_lostOrder.mp hx
    · refine Relation.ReflTransGen.single ⟨hnot, Or.inl ?_⟩
      rw [husers]
      exact hx
    · obtain ⟨t, ht, hbehind⟩ := hheld.reached x hx
      refine Relation.ReflTransGen.head ⟨hnot, Or.inr ?_⟩ hbehind
      rw [hservers]
      exact ht
    · exact Relation.ReflTransGen.refl

theorem Forest.Held.server_or_client {f : Forest} : ∀ {up : Nat}, f.Held s up → ∀ x ∈ f.order,
    x ∈ f.servOrder ∨ (s.client x).status = .client := by
  induction f with
  | nil =>
    intro up _ x hx
    cases hx
  | cons server us b n ihb ihn =>
    intro up h x hx
    obtain ⟨⟨-, -, -, -, hall⟩, hbelow, hnext⟩ := h
    rw [Forest.servOrder, List.mem_append, List.mem_append, List.mem_singleton]
    obtain hx | hx | rfl | hx := mem_order.mp hx
    · exact Or.inr (hall x hx).1
    · obtain h | h := ihb hbelow x hx
      · exact Or.inl (Or.inl (Or.inl h))
      · exact Or.inr h
    · exact Or.inl (Or.inl (Or.inr rfl))
    · obtain h | h := ihn hnext x hx
      · exact Or.inl (Or.inr h)
      · exact Or.inr h

/-- The dependents of a lost server come before it. -/
theorem lostOrder_sorted (h : s.IsServer source up users below) (hheld : below.Held s source)
    {x y : Nat} (hx : x ∈ lostOrder source users below) (hserver : (s.client x).status = .server)
    (hy : s.Behind x y) (hne : y ≠ x) : [y, x].Sublist (lostOrder source users below) := by
  have hlast : ∀ (us : List Nat) (b : Forest), y ∈ lostOrder x us b →
      [y, x].Sublist (lostOrder x us b) := by
    intro us b hmem
    have hmem' : y ∈ us ++ b.order := by
      obtain hmem | hmem | rfl := mem_lostOrder.mp hmem
      · exact List.mem_append_left _ hmem
      · exact List.mem_append_right _ hmem
      · exact absurd rfl hne
    exact List.Sublist.append (List.singleton_sublist.mpr hmem') (List.Sublist.refl [x])
  obtain hx | hx | rfl := mem_lostOrder.mp hx
  · rw [(h.2.2.2.2 x hx).1] at hserver
    cases hserver
  · obtain hx | hclient := hheld.server_or_client x hx
    · obtain ⟨us, b, up', hat⟩ := Forest.exists_at source hx
      obtain ⟨hserver', hheld'⟩ := hat.held hheld
      refine (hlast us b ((behind_iff hserver' hheld').mp hy)).trans (hat.lost_sublist.trans ?_)
      exact (List.sublist_append_right users below.order).trans (List.sublist_append_left _ _)
    · rw [hclient] at hserver
      cases hserver
  · exact hlast users below ((behind_iff h hheld).mp hy)

-- ============================================================================
-- remove_dependents
-- ============================================================================

/-- What the log of messages says to a server after some more of them. -/
theorem sentTo_append {s' : Net} {l : List (Nat × Msg)} (h : s'.sent = s.sent ++ l) (dest : Nat) :
    s'.sentTo dest = s.sentTo dest ++ (l.filter fun x => x.1 == dest).map Prod.snd := by
  unfold Net.sentTo
  rw [h, List.filter_append, List.map_append]

theorem recurseSendQuits_sent (l : List (Nat × Msg)) (dest : Nat) (comment1 comment : Bytes)
    (depth : Nat) : ({ s with sent := l } : Net).recurseSendQuits dest comment1 comment depth
      = s.recurseSendQuits dest comment1 comment depth := by
  induction depth with
  | zero => rfl
  | succ depth ih =>
    funext x
    rw [Net.recurseSendQuits, Net.recurseSendQuits, ih]
    rfl

/-- A server that `remove_dependents` passes over. -/
def Net.Skips (s : Net) (clientP : Option Nat) (source dest : Nat) : Prop :=
  (s.client dest).status = .me ∨ dest = (s.client source).link ∨
    (some dest = clientP ∧ (s.client dest).capQs = true)

/-- What a server is sent about the lost clients. -/
def Net.splitMsgs (s : Net) (source : Nat) (lost : List Nat) (comment1 comment : Bytes)
    (dest : Nat) : List Msg :=
  if (s.client dest).capQs then [.squit none (s.getId source dest) comment]
  else lost.map (s.lostMsg comment1 comment)

theorem recurseSendQuits_source (h : s.IsServer source up users below)
    (hheld : below.Held s source) {depth : Nat} (hdepth : below.depth < depth)
    (comment1 comment : Bytes) (dest : Nat) :
    s.recurseSendQuits dest comment1 comment depth source
      = some (s.splitMsgs source (lostOrder source users below) comment1 comment dest) := by
  obtain ⟨depth, rfl⟩ : ∃ d, depth = d + 1 := ⟨depth - 1, by omega⟩
  unfold Net.splitMsgs
  cases hqs : (s.client dest).capQs with
  | true => rw [Net.recurseSendQuits, if_pos hqs, if_pos rfl]
  | false =>
    obtain ⟨msgs, hmsgs, hflat⟩ := recurseSendQuits_forest hqs hheld (Nat.le_of_lt_succ hdepth)
    rw [recurseSendQuits_server hqs h hmsgs hflat, if_neg Bool.false_ne_true]
    rfl

theorem filter_sent_self (dest : Nat) (msgs : List Msg) :
    ((msgs.map fun msg => (dest, msg)).filter fun x => x.1 == dest).map Prod.snd = msgs := by
  rw [List.filter_eq_self.mpr, List.map_map]
  · exact List.map_id msgs
  · intro x hx
    obtain ⟨msg, -, rfl⟩ := List.mem_map.mp hx
    exact beq_self_eq_true dest

theorem filter_sent_of_ne {dest other : Nat} (h : other ≠ dest) (msgs : List Msg) :
    ((msgs.map fun msg => (other, msg)).filter fun x => x.1 == dest) = [] := by
  rw [List.filter_eq_nil_iff]
  intro x hx
  obtain ⟨msg, -, rfl⟩ := List.mem_map.mp hx
  rw [beq_iff_eq]
  exact h

/-- The walk of `remove_dependents` over a list of servers. -/
theorem sendDependents_foldlM (h : s.IsServer source up users below) (hheld : below.Held s source)
    {depth : Nat} (hdepth : below.depth < depth) (clientP : Option Nat) (comment1 comment : Bytes)
    (l : List Nat) : ∀ sent : List (Nat × Msg), l.Nodup →
    ∃ more, l.foldlM (Net.sendDependents depth clientP source comment comment1)
        { s with sent := sent } = some { s with sent := sent ++ more } ∧
      (∀ dest ∉ l, more.filter (fun x => x.1 == dest) = []) ∧
      ∀ dest ∈ l, ¬ s.Skips clientP source dest → (more.filter fun x => x.1 == dest).map Prod.snd
        = s.splitMsgs source (lostOrder source users below) comment1 comment dest := by
  induction l with
  | nil =>
    intro sent _
    refine ⟨[], by rw [List.append_nil]; rfl, fun _ _ => rfl, fun dest hdest => ?_⟩
    cases hdest
  | cons first l ih =>
    intro sent hnodup
    obtain ⟨hfirst, hnodup⟩ := List.nodup_cons.mp hnodup
    rw [List.foldlM_cons]
    by_cases hskip : s.Skips clientP source first
    · obtain ⟨more, hmore, hout, hin⟩ := ih sent hnodup
      have hone : Net.sendDependents depth clientP source comment comment1 { s with sent := sent } first
          = some { s with sent := sent } := if_pos hskip
      refine ⟨more, by rw [hone]; exact hmore, fun dest hdest => ?_, fun dest hdest hnot => ?_⟩
      · exact hout dest fun hmem => hdest (List.mem_cons_of_mem first hmem)
      · obtain rfl | hdest := List.mem_cons.mp hdest
        · exact absurd hskip hnot
        · exact hin dest hdest hnot
    · obtain ⟨more, hmore, hout, hin⟩ := ih (sent ++ (s.splitMsgs source
        (lostOrder source users below) comment1 comment first).map fun msg => (first, msg)) hnodup
      have hone : Net.sendDependents depth clientP source comment comment1 { s with sent := sent } first
          = some { s with sent := sent ++ (s.splitMsgs source (lostOrder source users below) comment1
              comment first).map fun msg => (first, msg) } := by
        refine (if_neg hskip).trans ?_
        rw [recurseSendQuits_sent, recurseSendQuits_source h hheld hdepth]
        rfl
      refine ⟨(s.splitMsgs source (lostOrder source users below) comment1 comment first).map
        (fun msg => (first, msg)) ++ more, ?_, fun dest hdest => ?_, fun dest hdest hnot => ?_⟩
      · rw [hone, ← List.append_assoc]
        exact hmore
      · rw [List.mem_cons, not_or] at hdest
        rw [List.filter_append, filter_sent_of_ne (Ne.symm hdest.1), hout dest hdest.2]
        rfl
      · rw [List.filter_append]
        obtain rfl | hdest := List.mem_cons.mp hdest
        · rw [hout dest hfirst, List.append_nil, filter_sent_self]
        · have hne : first ≠ dest := fun heq => hfirst (heq ▸ hdest)
          rw [filter_sent_of_ne hne, List.nil_append]
          exact hin dest hdest hnot

/-- The dependents of a server are gone, and the servers have been told. -/
structure Dropped (s s' : Net) (clientP : Option Nat) (source : Nat) (users : List Nat)
    (below : Forest) (comment comment1 : Bytes) : Prop where
  clients : s'.globalClientList = s.globalClientList.diff (users ++ below.order)
  servers : s'.globalServList = s.globalServList.diff below.servOrder
  links : s'.servList = s.servList
  self : s'.client source = { s.client source with users := [], servers := [] }
  emptied : ∀ x ∈ below.servOrder, (s'.client x).users = [] ∧ (s'.client x).servers = []
  others : ∀ x, x ≠ source → x ∉ users ++ below.order → s'.client x = s.client x
  told : ∀ dest ∈ s.servList, ¬ s.Skips clientP source dest → s'.sentTo dest = s.sentTo dest ++
    s.splitMsgs source (lostOrder source users below) comment1 comment dest

/-- `remove_dependents`. -/
theorem removeDependents_spec (h : s.IsServer source up users below) (hheld : below.Held s source)
    (hnodup : (source :: (users ++ below.order)).Nodup) {depth : Nat} (hdepth : below.depth < depth)
    (hlinks : s.servList.Nodup) (clientP : Option Nat) (comment comment1 : Bytes) :
    ∃ s', s.removeDependents depth clientP source comment comment1 = some s' ∧
      Dropped s s' clientP source users below comment comment1 := by
  obtain ⟨more, hmore, -, hin⟩ :=
    sendDependents_foldlM h hheld hdepth clientP comment1 comment s.servList s.sent hlinks
  obtain ⟨d, rfl⟩ : ∃ d, depth = d + 1 := ⟨depth - 1, by omega⟩
  have hnodupBelow : (source :: below.order).Nodup :=
    hnodup.sublist ((List.sublist_append_right users below.order).cons_cons source)
  have hheld' : below.Held { s with sent := s.sent ++ more } source := hheld.congr fun _ _ => rfl
  obtain ⟨s', hs', hclients, hservs, hlinks', hsent, hself, hemptied, hothers⟩ :=
    recurseRemoveClients_server comment1 (s := { s with sent := s.sent ++ more }) h hheld' hnodup
      fun s₁ hheld₁ => recurseRemoveClients_forest comment1 hheld₁ hnodupBelow
        (Nat.le_of_lt_succ hdepth)
  refine ⟨s', ?_, hclients, hservs, hlinks', hself, hemptied, hothers, fun dest hdest hnot => ?_⟩
  · unfold Net.removeDependents
    rw [hmore]
    exact hs'
  · rw [sentTo_append hsent, hin dest hdest hnot]

end Bluebox.Netsplit
