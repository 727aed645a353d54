/-
  Bluebox.Netsplit.Tree

  The servers of a network as a forest, and how the client lists hold it.

  A forest is a list of servers, each with its users and with the forest behind it.
  `Forest.Held` says that the records of the clients spell it out; the walks of
  `recurse_send_quits` and `recurse_remove_clients` then follow `Forest.order`, which
  has the dependents of a server before the server.
-/
import Mathlib.Logic.Relation
import Mathlib.Data.List.Nodup
import Bluebox.Netsplit.Basic

namespace Bluebox.Netsplit

open Bluebox.Lib

-- ============================================================================
-- Forests
-- ============================================================================

/-- A server with its users, the servers behind it and the servers next to it. -/
inductive Forest
  | nil
  | cons (server : Nat) (users : List Nat) (below next : Forest)

namespace Forest

/-- The servers at the top. -/
def tops : Forest → List Nat
  | nil => []
  | cons server _ _ next => server :: next.tops

/-- All clients, with the dependents of a server before it. -/
def order : Forest → List Nat
  | nil => []
  | cons server users below next => users ++ below.order ++ [server] ++ next.order

/-- The servers in this order. -/
def servOrder : Forest → List Nat
  | nil => []
  | cons server _ below next => below.servOrder ++ [server] ++ next.servOrder

/-- How deep the servers are nested. -/
def depth : Forest → Nat
  | nil => 0
  | cons _ _ below next => max (below.depth + 1) next.depth

/-- The forest without a server and what is behind it. -/
def prune (source : Nat) : Forest → Forest
  | nil => nil
  | cons server users below next =>
    if server = source then next.prune source
    else cons server users (below.prune source) (next.prune source)

/-- The records of the clients hold the forest behind a server. -/
def Held (s : Net) (up : Nat) : Forest → Prop
  | nil => True
  | cons server users below next =>
    ((s.client server).status = .server ∧ (s.client server).servptr = up ∧
      (s.client server).users = users ∧ (s.client server).servers = below.tops ∧
      ∀ u ∈ users, (s.client u).status = .client ∧ (s.client u).servptr = server ∧
        (s.client u).dead = false ∧ (s.client u).closing = false) ∧
    below.Held s server ∧ next.Held s up

theorem tops_subset (f : Forest) : ∀ x ∈ f.tops, x ∈ f.servOrder := by
  induction f with
  | nil =>
    intro x hx
    exact hx
  | cons server users below next _ ihn =>
    intro x hx
    obtain rfl | hx := List.mem_cons.mp hx
    · exact List.mem_append_left _ (List.mem_append_right _ (List.mem_singleton_self x))
    · exact List.mem_append_right _ (ihn x hx)

theorem tops_sublist (f : Forest) : f.tops.Sublist f.order := by
  induction f with
  | nil => exact List.Sublist.refl _
  | cons server users below next _ ihn =>
    rw [order, List.append_assoc]
    exact (ihn.cons_cons server).trans (List.sublist_append_right _ (server :: next.order))

theorem servOrder_sublist (f : Forest) : f.servOrder.Sublist f.order := by
  induction f with
  | nil => exact List.Sublist.refl _
  | cons server users below next ihb ihn =>
    refine List.Sublist.append (List.Sublist.append ?_ (List.Sublist.refl _)) ihn
    exact ihb.trans (List.sublist_append_right users below.order)

/-- The records of other clients do not matter. -/
theorem Held.congr {s s' : Net} {f : Forest} : ∀ {up : Nat}, f.Held s up →
    (∀ x ∈ f.order, s'.client x = s.client x) → f.Held s' up := by
  induction f with
  | nil =>
    intro up _ _
    trivial
  | cons server users below next ihb ihn =>
    intro up h hsame
    obtain ⟨⟨hstatus, hup, husers, hservers, hall⟩, hbelow, hnext⟩ := h
    have hserver : s'.client server = s.client server := hsame server (by simp [order])
    refine ⟨⟨?_, ?_, ?_, ?_, fun u hu => ?_⟩, ?_, ?_⟩
    · rw [hserver]
      exact hstatus
    · rw [hserver]
      exact hup
    · rw [hserver]
      exact husers
    · rw [hserver]
      exact hservers
    · rw [hsame u (by simp [order, hu])]
      exact hall u hu
    · exact ihb hbelow fun x hx => hsame x (by simp [order, hx])
    · exact ihn hnext fun x hx => hsame x (by simp [order, hx])

end Forest

-- ============================================================================
-- What is sent
-- ============================================================================

/-- The message to a server without `CAP_QS` about a lost client. -/
def Net.lostMsg (s : Net) (comment1 comment : Bytes) (x : Nat) : Msg :=
  if (s.client x).status = .server then .squit none (s.client x).name comment
  else .quit (s.client x).name comment1

/-- A server, as its record and those of its users have it. -/
def Net.IsServer (s : Net) (server up : Nat) (users : List Nat) (below : Forest) : Prop :=
  (s.client server).status = .server ∧ (s.client server).servptr = up ∧
    (s.client server).users = users ∧ (s.client server).servers = below.tops ∧
    ∀ u ∈ users, (s.client u).status = .client ∧ (s.client u).servptr = server ∧
      (s.client u).dead = false ∧ (s.client u).closing = false

/-- `recurse_send_quits` for one server, from what it does for those behind it. -/
theorem recurseSendQuits_server {s : Net} {dest : Nat} (hqs : (s.client dest).capQs = false)
    {comment1 comment : Bytes} {server up depth : Nat} {users : List Nat} {below : Forest}
    (h : s.IsServer server up users below) {msgs : List (List Msg)}
    (hmsgs : below.tops.mapM (s.recurseSendQuits dest comment1 comment depth) = some msgs)
    (hflat : msgs.flatten = below.order.map (s.lostMsg comment1 comment)) :
    s.recurseSendQuits dest comment1 comment (depth + 1) server =
      some ((users ++ below.order ++ [server]).map (s.lostMsg comment1 comment)) := by
  obtain ⟨hstatus, -, husers, hservers, hall⟩ := h
  rw [Net.recurseSendQuits, if_neg (by rw [hqs]; exact Bool.false_ne_true), hservers, hmsgs,
    husers, Option.map_some, hflat]
  have husersMap : users.map (fun x => Msg.quit (s.client x).name comment1)
      = users.map (s.lostMsg comment1 comment) := by
    refine List.map_congr_left fun u hu => ?_
    unfold Net.lostMsg
    rw [if_neg]
    rw [(hall u hu).1]
    exact Status.noConfusion
  have hlast : s.lostMsg comment1 comment server = .squit none (s.client server).name comment :=
    if_pos hstatus
  rw [husersMap, List.map_append, List.map_append, List.map_singleton, hlast]

/-- `recurse_send_quits` over a list of servers goes by the order of the forest. -/
theorem recurseSendQuits_forest {s : Net} {dest : Nat} (hqs : (s.client dest).capQs = false)
    {comment1 comment : Bytes} {f : Forest} : ∀ {up depth : Nat}, f.Held s up → f.depth ≤ depth →
    ∃ msgs, f.tops.mapM (s.recurseSendQuits dest comment1 comment depth) = some msgs ∧
      msgs.flatten = f.order.map (s.lostMsg comment1 comment) := by
  induction f with
  | nil =>
    intro up depth _ _
    exact ⟨[], rfl, rfl⟩
  | cons server users below next ihb ihn =>
    intro up depth h hdepth
    obtain ⟨hserver, hbelow, hnext⟩ := h
    have hdepths : below.depth + 1 ≤ depth ∧ next.depth ≤ depth := Nat.max_le.mp hdepth
    obtain ⟨depth, rfl⟩ : ∃ d, depth = d + 1 := ⟨depth - 1, by omega⟩
    obtain ⟨msgs, hmsgs, hflat⟩ := ihb hbelow (Nat.le_of_succ_le_succ hdepths.1)
    obtain ⟨more, hmore, hflat'⟩ := ihn hnext hdepths.2
    have hone := recurseSendQuits_server hqs hserver hmsgs hflat
    refine ⟨(users ++ below.order ++ [server]).map (s.lostMsg comment1 comment) :: more, ?_, ?_⟩
    · rw [Forest.tops, List.mapM_cons, hone, hmore]
      rfl
    · rw [List.flatten_cons, hflat', ← List.map_append]
      rfl

-- ============================================================================
-- What is removed
-- ============================================================================

/-- The clients of a list are gone from the client list and those of another one from
    the list of servers, which list nobody any more.  One client may have lost servers
    from its list. -/
structure Removed (s s' : Net) (up : Nat) (tops lost servs : List Nat) : Prop where
  clients : s'.globalClientList = s.globalClientList.diff lost
  servers : s'.globalServList = s.globalServList.diff servs
  links : s'.servList = s.servList
  sent : s'.sent = s.sent
  uplink : s'.client up = { s.client up with servers := (s.client up).servers.diff tops }
  others : ∀ x, x ≠ up → x ∉ lost → s'.client x = s.client x
  emptied : ∀ x ∈ servs, (s'.client x).users = [] ∧ (s'.client x).servers = []

theorem diff_self (l : List Nat) : l.diff l = [] := by
  induction l with
  | nil => rfl
  | cons x l ih => rw [List.diff_cons, List.erase_cons_head, ih]

/-- One user of a server goes. -/
theorem removeUser_spec {s : Net} {u server : Nat} (comment : Bytes) (hne : u ≠ server)
    (hup : (s.client u).servptr = server) (hdead : (s.client u).dead = false)
    (hclosing : (s.client u).closing = false) :
    (s.removeUser comment u).globalClientList = s.globalClientList.erase u ∧
    (s.removeUser comment u).globalServList = s.globalServList ∧
    (s.removeUser comment u).servList = s.servList ∧ (s.removeUser comment u).sent = s.sent ∧
    (s.removeUser comment u).client server
      = { s.client server with users := (s.client server).users.erase u } ∧
    ∀ x, x ≠ server → x ≠ u → (s.removeUser comment u).client x = s.client x := by
  unfold Net.removeUser
  rw [hdead, hclosing, if_neg (by decide)]
  unfold Net.exitRemoteClient
  rw [modify_self, if_pos rfl]
  have hservptr : ((s.modify u fun c => { c with killed := true }).client u).servptr = server := by
    rw [modify_self]
    exact hup
  unfold Net.unlinkUser Net.setDead
  rw [client_removeClientFromList, hservptr]
  refine ⟨rfl, rfl, rfl, rfl, ?_, fun x hserver hu => ?_⟩
  · rw [modify_of_ne (Ne.symm hne), modify_self, client_removeClientFromList,
      modify_of_ne (Ne.symm hne)]
  · rw [modify_of_ne hu, modify_of_ne hserver, client_removeClientFromList, modify_of_ne hu]

/-- The users of a server go.  By induction over the users still to come. -/
theorem removeUser_foldl (comment : Bytes) {server : Nat} (users : List Nat) : ∀ {s : Net},
    (server :: users).Nodup →
    (∀ u ∈ users, (s.client u).servptr = server ∧ (s.client u).dead = false ∧
      (s.client u).closing = false) →
    (users.foldl (Net.removeUser comment) s).globalClientList = s.globalClientList.diff users ∧
    (users.foldl (Net.removeUser comment) s).globalServList = s.globalServList ∧
    (users.foldl (Net.removeUser comment) s).servList = s.servList ∧
    (users.foldl (Net.removeUser comment) s).sent = s.sent ∧
    (users.foldl (Net.removeUser comment) s).client server
      = { s.client server with users := (s.client server).users.diff users } ∧
    ∀ x, x ≠ server → x ∉ users → (users.foldl (Net.removeUser comment) s).client x = s.client x := by
  induction users with
  | nil =>
    intro s _ _
    exact ⟨rfl, rfl, rfl, rfl, rfl, fun _ _ _ => rfl⟩
  | cons u users ih =>
    intro s hnodup hall
    obtain ⟨hu, hall⟩ := List.forall_mem_cons.mp hall
    obtain ⟨hserver, hnodup⟩ := List.nodup_cons.mp hnodup
    obtain ⟨hu', hnodup⟩ := List.nodup_cons.mp hnodup
    have hne : u ≠ server := fun h => hserver (h ▸ List.mem_cons_self)
    obtain ⟨hclients, hservs, hlinks, hsent, huplink, hothers⟩ :=
      removeUser_spec comment hne hu.1 hu.2.1 hu.2.2
    have hkeep : ∀ v ∈ users, (s.removeUser comment u).client v = s.client v := by
      intro v hv
      refine hothers v (fun h => hserver ?_) fun h => hu' (h ▸ hv)
      rw [← h]
      exact List.mem_cons_of_mem u hv
    obtain ⟨hclients', hservs', hlinks', hsent', huplink', hothers'⟩ :=
      ih (s := s.removeUser comment u)
        (List.nodup_cons.mpr ⟨fun h => hserver (List.mem_cons_of_mem u h), hnodup⟩)
        (fun v hv => by rw [hkeep v hv]; exact hall v hv)
    rw [List.foldl_cons]
    refine ⟨?_, hservs'.trans hservs, hlinks'.trans hlinks, hsent'.trans hsent, ?_, ?_⟩
    · rw [hclients', hclients, List.diff_cons]
    · rw [huplink', huplink, List.diff_cons]
    · intro x hx hmem
      rw [List.mem_cons, not_or] at hmem
      rw [hothers' x hx hmem.2, hothers x hx hmem.1]

/-- `qs_server`. -/
theorem qsServer_spec {s : Net} {x up : Nat} (hne : x ≠ up) (hup : (s.client x).servptr = up) :
    (s.qsServer x).globalClientList = s.globalClientList.erase x ∧
    (s.qsServer x).globalServList = s.globalServList.erase x ∧
    (s.qsServer x).servList = s.servList ∧ (s.qsServer x).sent = s.sent ∧
    (s.qsServer x).client up = { s.client up with servers := (s.client up).servers.erase x } ∧
    (s.qsServer x).client x = { s.client x with dead := true } ∧
    ∀ y, y ≠ up → y ≠ x → (s.qsServer x).client y = s.client y := by
  unfold Net.qsServer Net.unlinkServer Net.setDead
  rw [hup]
  refine ⟨rfl, rfl, rfl, rfl, ?_, ?_, fun y hy hyx => ?_⟩
  · rw [modify_of_ne (Ne.symm hne), client_removeClientFromList, client_removeGlobalServ,
      modify_self]
  · rw [modify_self, client_removeClientFromList, client_removeGlobalServ, modify_of_ne hne]
  · rw [modify_of_ne hyx, client_removeClientFromList, client_removeGlobalServ, modify_of_ne hy]

/-- `recurse_remove_clients` for one server, from what it does for those behind it. -/
theorem recurseRemoveClients_server (comment : Bytes) {s : Net} {server up depth : Nat}
    {users : List Nat} {below : Forest} (h : s.IsServer server up users below)
    (hbelow : below.Held s server) (hnodup : (server :: (users ++ below.order)).Nodup)
    (hloop : ∀ s₁ : Net, below.Held s₁ server → ∃ s₂, below.tops.foldlM (fun s t =>
      (s.recurseRemoveClients comment depth t).map fun s => s.qsServer t) s₁ = some s₂ ∧
      Removed s₁ s₂ server below.tops below.order below.servOrder) :
    ∃ s₂, s.recurseRemoveClients comment (depth + 1) server = some s₂ ∧
      s₂.globalClientList = s.globalClientList.diff (users ++ below.order) ∧
      s₂.globalServList = s.globalServList.diff below.servOrder ∧
      s₂.servList = s.servList ∧ s₂.sent = s.sent ∧
      s₂.client server = { s.client server with users := [], servers := [] } ∧
      (∀ x ∈ below.servOrder, (s₂.client x).users = [] ∧ (s₂.client x).servers = []) ∧
      ∀ x, x ≠ server → x ∉ users ++ below.order → s₂.client x = s.client x := by
  obtain ⟨hstatus, hup, husers, hservers, hall⟩ := h
  obtain ⟨hserver, hnodup⟩ := List.nodup_cons.mp hnodup
  obtain ⟨hnodupUsers, hnodupBelow, hdisjoint⟩ := List.nodup_append.mp hnodup
  rw [List.mem_append, not_or] at hserver
  obtain ⟨hclients, hservs, hlinks, hsent, huplink, hothers⟩ :=
    removeUser_foldl comment users (List.nodup_cons.mpr ⟨hserver.1, hnodupUsers⟩)
      fun u hu => (hall u hu).2
  have hloop₁ : s.removeUsers comment server = users.foldl (Net.removeUser comment) s := by
    unfold Net.removeUsers
    rw [husers]
  rw [← hloop₁] at hclients hservs hlinks hsent huplink hothers
  have hheld : below.Held (s.removeUsers comment server) server := by
    refine hbelow.congr fun x hx => hothers x (fun h => hserver.2 (h ▸ hx)) fun hmem => ?_
    exact hdisjoint x hmem x hx rfl
  obtain ⟨s₂, hs₂, hremoved⟩ := hloop _ hheld
  have hservers₁ : ((s.removeUsers comment server).client server).servers = below.tops := by
    rw [huplink]
    exact hservers
  refine ⟨s₂, ?_, ?_, ?_, ?_, ?_, ?_, hremoved.emptied, fun x hx hmem => ?_⟩
  · rw [Net.recurseRemoveClients, if_neg (by rw [hstatus]; exact Status.noConfusion), hservers₁]
    exact hs₂
  · rw [hremoved.clients, hclients, List.diff_append]
  · rw [hremoved.servers, hservs]
  · rw [hremoved.links, hlinks]
  · rw [hremoved.sent, hsent]
  · rw [hremoved.uplink, huplink, husers, hservers, diff_self, diff_self]
  · rw [List.mem_append, not_or] at hmem
    rw [hremoved.others x hx hmem.2, hothers x hx hmem.1]

/-- `recurse_remove_clients` over a list of servers removes the forest. -/
theorem recurseRemoveClients_forest (comment : Bytes) {f : Forest} : ∀ {up depth : Nat} {s : Net},
    f.Held s up → (up :: f.order).Nodup → f.depth ≤ depth →
    ∃ s', f.tops.foldlM (fun s t =>
      (s.recurseRemoveClients comment depth t).map fun s => s.qsServer t) s = some s' ∧
      Removed s s' up f.tops f.order f.servOrder := by
  induction f with
  | nil =>
    intro up depth s _ _ _
    refine ⟨s, rfl, rfl, rfl, rfl, rfl, rfl, fun _ _ _ => rfl, fun x hx => ?_⟩
    cases hx
  | cons server users below next ihb ihn =>
    intro up depth s h hnodup hdepth
    obtain ⟨hserver, hbelow, hnext⟩ := h
    have hdepths : below.depth + 1 ≤ depth ∧ next.depth ≤ depth := Nat.max_le.mp hdepth
    obtain ⟨depth, rfl⟩ : ∃ d, depth = d + 1 := ⟨depth - 1, by omega⟩
    obtain ⟨hup, hnodup⟩ := List.nodup_cons.mp hnodup
    rw [Forest.order, List.nodup_append] at hnodup
    rw [Forest.order, List.mem_append, List.mem_append, List.mem_singleton, not_or, not_or] at hup
    obtain ⟨hhead, hnodupNext, hdisjoint⟩ := hnodup
    have hhead' : (server :: (users ++ below.order)).Nodup :=
      (List.perm_append_singleton server (users ++ below.order)).nodup_iff.mp hhead
    -- the server at the front
    have hnodupBelow : (server :: below.order).Nodup :=
      hhead'.sublist ((List.sublist_append_right users below.order).cons_cons server)
    obtain ⟨s₂, hs₂, hclients, hservs, hlinks, hsent, hself, hemptied, hothers⟩ :=
      recurseRemoveClients_server comment hserver hbelow hhead' fun s₁ hheld =>
        ihb hheld hnodupBelow (Nat.le_of_succ_le_succ hdepths.1)
    have hne : server ≠ up := Ne.symm hup.1.2
    have hservptr : (s₂.client server).servptr = up := by
      rw [hself]
      exact hserver.2.1
    obtain ⟨hclients₃, hservs₃, hlinks₃, hsent₃, huplink₃, hself₃, hothers₃⟩ :=
      qsServer_spec hne hservptr
    -- the others
    have hkeep : ∀ x ∈ next.order, (s₂.qsServer server).client x = s.client x := by
      intro x hx
      have hx' : x ∉ users ++ below.order ++ [server] := fun hmem => hdisjoint x hmem x hx rfl
      rw [List.mem_append, List.mem_singleton, not_or] at hx'
      rw [hothers₃ x (fun h => hup.2 (h ▸ hx)) hx'.2, hothers x hx'.2 hx'.1]
    obtain ⟨s', hs', hremoved⟩ := ihn (hnext.congr hkeep)
      (List.nodup_cons.mpr ⟨hup.2, hnodupNext⟩) hdepths.2
    refine ⟨s', ?_, ?_, ?_, ?_, ?_, ?_, fun x hx hmem => ?_, fun x hmem => ?_⟩
    · rw [Forest.tops, List.foldlM_cons, hs₂]
      exact hs'
    · rw [hremoved.clients, hclients₃, hclients, Forest.order]
      simp only [List.diff_append, List.diff_cons, List.diff_nil]
    · rw [hremoved.servers, hservs₃, hservs, Forest.servOrder]
      simp only [List.diff_append, List.diff_cons, List.diff_nil]
    · rw [hremoved.links, hlinks₃, hlinks]
    · rw [hremoved.sent, hsent₃, hsent]
    · rw [hremoved.uplink, huplink₃, hothers up hup.1.2 hup.1.1, Forest.tops, List.diff_cons]
    · rw [Forest.order, List.mem_append, List.mem_append, List.mem_singleton, not_or, not_or] at hmem
      rw [hremoved.others x hx hmem.2, hothers₃ x hx hmem.1.2, hothers x hmem.1.2 hmem.1.1]
    · rw [Forest.servOrder, List.mem_append, List.mem_append, List.mem_singleton] at hmem
      obtain (hmem | rfl) | hmem := hmem
      · have hmem' := below.servOrder_sublist.subset hmem
        have hnext : x ∉ next.order := fun h =>
          hdisjoint x (List.mem_append_left _ (List.mem_append_right _ hmem')) x h rfl
        have hxup : x ≠ up := fun h => hup.1.1 (List.mem_append_right _ (h ▸ hmem'))
        have hxserver : x ≠ server := fun h => (List.nodup_cons.mp hnodupBelow).1 (h ▸ hmem')
        rw [hremoved.others x hxup hnext, hothers₃ x hxup hxserver]
        exact hemptied x hmem
      · have hnext : x ∉ next.order := fun h =>
          hdisjoint x (List.mem_append_right _ (List.mem_singleton_self x)) x h rfl
        rw [hremoved.others x hne hnext, hself₃, hself]
        exact ⟨rfl, rfl⟩
      · exact hremoved.emptied x hmem

end Bluebox.Netsplit
