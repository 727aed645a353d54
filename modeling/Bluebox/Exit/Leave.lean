/-
  Bluebox.Exit.Leave

  Writes that fail, exits and the two events keep the invariant, and find what they need.

  What is behind a server leaves before it, leaf by leaf; `Inv.recurseRemoveClients` is
  the induction.  `Inv.reflag` is for the flags, which change while all else stays.
-/
import Bluebox.Exit.Safe

namespace Bluebox.Exit

open Bluebox.Lib

variable {w w' : World} {x y z p : Nat} {c d : Client} {half : Option Nat}

-- ============================================================================
-- Leaves
-- ============================================================================

theorem World.modify_of_some (h : w.client x = some c) (f : Client → Client) :
    w.modify x f = some { w with client := Function.update w.client x (some (f c)) } := by
  rw [World.modify, h]
  rfl

/-- Only its server has a client among its users or its servers. -/
theorem Inv.not_mem_of_servptr (h : Inv half w) (hy : Linked w y c) (hz : w.client z = some d) (hne : c.servptr ≠ some z) :
    y ∉ d.users ∧ y ∉ d.servers := by
  obtain ⟨-, hu, hs⟩ := h.tree hz
  constructor
  · intro hmem
    obtain ⟨c', hc', -, hp⟩ := hu y hmem
    exact hne (hy.unique hc' ▸ hp)
  · intro hmem
    obtain ⟨c', hc', -, hp⟩ := hs y hmem
    exact hne (hy.unique hc' ▸ hp)

theorem Client.without_eq (hu : y ∉ d.users) (hs : y ∉ d.servers) : d.without y = d := by
  rw [Client.without, List.erase_of_not_mem hu, List.erase_of_not_mem hs]

/-- Not to be on a list that holds others. -/
theorem Holds.not_mem {l : List Nat} {P : Client → Prop} (h : Holds w l P) (hy : Linked w y c) (hP : ¬P c) : y ∉ l := by
  intro hmem
  obtain ⟨c', hc', hp⟩ := h.2 y hmem
  exact hP (hy.unique hc' ▸ hp)

/-- Only servers have users and servers. -/
theorem Inv.leaf (h : Inv half w) (hx : Linked w x c) (hstatus : c.status ≠ .server) (hne : x ≠ me) :
    c.users = [] ∧ c.servers = [] := by
  have hnone : ∀ y d, Linked w y d → d.status ≠ .me → d.status ≠ .unknown → d.servptr ≠ some x := by
    intro y d hy hme hunknown hp
    obtain ⟨p, e, hp', -, he, hkind, -⟩ := (h.placed hy).up (by rintro rfl; exact hme (h.status_me hy)) hunknown
    obtain rfl : p = x := by grind
    obtain rfl := he.unique hx
    exact hkind.elim (fun hs => hne (h.only_me hx.1 hs)) hstatus
  obtain ⟨-, hu, hs⟩ := h.tree hx.1
  refine ⟨List.eq_nil_iff_forall_not_mem.mpr fun y hy => ?_, List.eq_nil_iff_forall_not_mem.mpr fun y hy => ?_⟩
  · obtain ⟨d, hd, hst, hp⟩ := hu y hy
    exact hnone y d hd (by simp [hst]) (by simp [hst]) hp
  · obtain ⟨d, hd, hst, hp⟩ := hs y hy
    exact hnone y d hd (by simp [hst]) (by simp [hst]) hp

theorem bury_eq (h : w.client x = some c) : bury w x = some { w with
    client := Function.update w.client x (some { c with dead := true })
    deadList := x :: w.deadList } := by
  rw [bury, World.modify_of_some h]
  rfl

theorem unlinkUser_eq (h : w.client x = some c) (hp : c.servptr = some p) (hd : w.client p = some d) :
    unlinkUser w x = some { w with client := Function.update w.client p (some { d with users := d.users.erase x }) } := by
  rw [unlinkUser, h, Option.bind_some, hp]
  exact World.modify_of_some hd _

theorem unlinkServer_eq (h : w.client x = some c) (hp : c.servptr = some p) (hd : w.client p = some d) :
    unlinkServer w x = some { w with client := Function.update w.client p (some { d with servers := d.servers.erase x }) } := by
  rw [unlinkServer, h, Option.bind_some, hp]
  exact World.modify_of_some hd _

/-- What is left of the others when a client has been taken from its server. -/
theorem Inv.others (h : Inv half w) (hy : Linked w y c) (hp : c.servptr = some p) {e e' : Client} (he : w.client p = some e)
    (he' : e' = e.without y) (hz : z ≠ y) {c' : Option Client} :
    Function.update (Function.update w.client p (some e')) y c' z = (w.client z).map fun d => d.without y := by
  rw [Function.update_of_ne hz]
  by_cases hzp : z = p
  · rw [hzp, Function.update_self, he, he']
    rfl
  · rw [Function.update_of_ne hzp]
    cases hd : w.client z with
    | none => rfl
    | some d =>
      obtain ⟨hdu, hds⟩ := h.not_mem_of_servptr hy hd (by rw [hp]; simpa using Ne.symm hzp)
      exact congrArg some (Client.without_eq hdu hds).symm

/-- Users are clients, and servers are servers. -/
theorem Inv.not_mem_of_status (h : Inv half w) (hy : Linked w y c) (hz : w.client z = some d) :
    (c.status ≠ .client → y ∉ d.users) ∧ (c.status ≠ .server → y ∉ d.servers) := by
  obtain ⟨-, hu, hs⟩ := h.tree hz
  constructor
  · intro hstatus hmem
    obtain ⟨c', hc', hst, -⟩ := hu y hmem
    exact hstatus (hy.unique hc' ▸ hst)
  · intro hstatus hmem
    obtain ⟨c', hc', hst, -⟩ := hs y hmem
    exact hstatus (hy.unique hc' ▸ hst)

theorem Inv.without_user (h : Inv half w) (hy : Linked w y c) (hstatus : c.status = .client) (hd : w.client p = some d) :
    { d with users := d.users.erase y } = d.without y := by
  rw [Client.without, List.erase_of_not_mem ((h.not_mem_of_status hy hd).2 (by simp [hstatus]))]

theorem Inv.without_server (h : Inv half w) (hy : Linked w y c) (hstatus : c.status = .server) (hd : w.client p = some d) :
    { d with servers := d.servers.erase y } = d.without y := by
  rw [Client.without, List.erase_of_not_mem ((h.not_mem_of_status hy hd).1 (by simp [hstatus]))]

/-- `exit_remote_client`. -/
theorem Inv.exitRemoteClient_drops (h : Inv half w) (hy : Linked w y c) (hme : y ≠ me) (hstatus : c.status = .client)
    (hremote : c.myConnect = false) : ∃ w', exitRemoteClient w y = some w' ∧ Drops w w' y := by
  obtain ⟨p, e, hp, hlt, he, -, -⟩ := (h.placed hy).up hme (by simp [hstatus])
  have hyp : y ≠ p := by omega
  rw [exitRemoteClient, unlinkUser_eq hy.1 hp he.1, Option.bind_some, bury_eq (c := c) (by
    show Function.update w.client p _ y = some c
    rw [Function.update_of_ne hyp]
    exact hy.1)]
  refine ⟨_, rfl, ⟨c, _, hy.1, Function.update_self .., rfl, rfl, rfl⟩,
    fun z hz => h.others hy hp he.1 (h.without_user hy hstatus he.1) hz, rfl, rfl, ?_, ?_, ?_, ?_, rfl⟩
  · exact (List.erase_of_not_mem (h.lists.unknown.not_mem hy (by simp [hstatus]))).symm
  · exact (List.erase_of_not_mem (h.lists.lclient.not_mem hy (by simp [hremote]))).symm
  · exact (List.erase_of_not_mem (h.lists.serv.not_mem hy (by simp [hstatus]))).symm
  · exact (List.erase_of_not_mem (h.lists.globalServ.not_mem hy (by simp [hstatus]))).symm

/-- `qs_server`, and the end of `exit_remote_server`. -/
theorem Inv.qsServer_drops (h : Inv half w) (hy : Linked w y c) (hme : y ≠ me) (hstatus : c.status = .server)
    (hserv : c.servptr ≠ some me) : ∃ w', qsServer w y = some w' ∧ Drops w w' y := by
  obtain ⟨p, e, hp, hlt, he, -, -⟩ := (h.placed hy).up hme (by simp [hstatus])
  have hyp : y ≠ p := by omega
  rw [qsServer, unlinkServer_eq hy.1 hp he.1, Option.bind_some, bury_eq (c := c) (by
    show Function.update w.client p _ y = some c
    rw [Function.update_of_ne hyp]
    exact hy.1)]
  refine ⟨_, rfl, ⟨c, _, hy.1, Function.update_self .., rfl, rfl, rfl⟩,
    fun z hz => h.others hy hp he.1 (h.without_server hy hstatus he.1) hz, rfl, rfl, ?_, ?_, ?_, rfl, rfl⟩
  · exact (List.erase_of_not_mem (h.lists.unknown.not_mem hy (by simp [hstatus]))).symm
  · exact (List.erase_of_not_mem (h.lists.lclient.not_mem hy (by simp [hstatus]))).symm
  · exact (List.erase_of_not_mem (h.lists.serv.not_mem hy (by simp [hserv]))).symm

-- ============================================================================
-- What is behind a server
-- ============================================================================

/-- Those before `s`, and whether `s` has exited, are as they were. -/
structure Under (w w' : World) (s : Nat) : Prop where
  client : ∀ z < s, w'.client z = w.client z
  dead : ∀ z ≤ s, z ∈ w'.deadList ↔ z ∈ w.deadList
  buried : ∀ z ∈ w.deadList, z ∈ w'.deadList
  abort : w'.abortList = w.abortList
  next : w'.next = w.next

theorem Under.refl (w : World) (s : Nat) : Under w w s := ⟨fun _ _ => rfl, fun _ _ => Iff.rfl, fun _ h => h, rfl, rfl⟩

theorem Under.trans {w'' : World} {s : Nat} (h : Under w w' s) (h' : Under w' w'' s) : Under w w'' s where
  client := fun z hz => (h'.client z hz).trans (h.client z hz)
  dead := fun z hz => (h'.dead z hz).trans (h.dead z hz)
  buried := fun z hz => h'.buried z (h.buried z hz)
  abort := h'.abort.trans h.abort
  next := h'.next.trans h.next

theorem Under.mono {s t : Nat} (h : Under w w' t) (hle : s ≤ t) : Under w w' s where
  client := fun z hz => h.client z (by omega)
  dead := fun z hz => h.dead z (by omega)
  buried := h.buried
  abort := h.abort
  next := h.next

/-- One behind `s` leaves. -/
theorem Drops.under {s : Nat} (hd : Drops w w' y) (h : Inv half w) (hy : Linked w y c) (hp : c.servptr = some s) (hlt : s < y) :
    Under w w' s := by
  refine ⟨fun z hz => ?_, fun z hz => ?_, fun z hz => by rw [hd.dead]; exact .tail _ hz, hd.abort, hd.next⟩
  · rw [hd.other z (by omega)]
    cases hz' : w.client z with
    | none => rfl
    | some d =>
      obtain ⟨hu, hs⟩ := h.not_mem_of_servptr hy hz' (by rw [hp]; simp; omega)
      exact congrArg some (Client.without_eq hu hs)
  · rw [hd.dead, List.mem_cons]
    have : z ≠ y := by omega
    simp [this]

/-- The walk over the users of a server. -/
theorem Inv.removeUsers {s : Nat} (hme : s ≠ me) (hhalf : ∀ x, half = some x → x ≤ s) (l : List Nat) : ∀ {w : World} {c : Client},
    Inv half w → Linked w s c → c.users = l → ∃ w', l.foldlM removeUser w = some w' ∧ Inv half w' ∧
      w'.client s = some { c with users := [] } ∧ Under w w' s := by
  induction l with
  | nil => exact fun {w c} h hs hu => ⟨w, rfl, h, by rw [hs.1, ← hu], Under.refl w s⟩
  | cons x l ih =>
    intro w c h hs hu
    obtain ⟨cx, hx, hstatus, hp⟩ := (h.tree hs.1).users x (by simp [hu])
    have hxme : x ≠ me := by
      rintro rfl
      simp [h.status_me hx] at hstatus
    obtain ⟨p, e, hp', hlt, -, -⟩ := (h.placed hx).up hxme (by simp [hstatus])
    have hlt : s < x := by
      rw [hp, Option.some.injEq] at hp'
      omega
    have hnot : half ≠ some x := by
      intro heq
      have := hhalf x heq
      omega
    have hserv : cx.servptr ≠ some me := by
      rw [hp]
      simpa using hme
    have hremote : cx.myConnect = false := by
      by_contra hlocal
      exact hserv (((h.placed hx).local_link (by simpa using hlocal)).2.2 (by simp [hstatus]))
    obtain ⟨hdead, hclosing⟩ := (h.placed hx).remote hnot hremote hxme
    obtain ⟨w₁, hw₁, hd⟩ := h.exitRemoteClient_drops hx hxme hstatus hremote
    have hleaf := h.leaf hx (by simp [hstatus]) hxme
    have hinv := h.drop hx hxme hleaf.1 hleaf.2 (fun hmem => by
      obtain ⟨-, c', hc', hlocal, -⟩ := ((h.sound x).abort).mp hmem
      simp [← hx.unique hc', hremote] at hlocal) hd
    rw [if_neg hnot] at hinv
    have hs₁ := hd.linked hs (by omega)
    obtain ⟨w', hw', hinv', hclient, hunder⟩ := ih hinv hs₁ (by simp [Client.without, hu])
    refine ⟨w', ?_, hinv', ?_, (hd.under h hx hp hlt).trans hunder⟩
    · rw [List.foldlM_cons, removeUser, hx.1, Option.bind_some, hdead, hclosing]
      simpa [hw₁] using hw'
    · rw [hclient, ← h.without_user hx hstatus hs.1]

/-- `recurse_remove_clients`: whatever is behind the server has exited. -/
theorem Inv.recurseRemoveClients (depth : Nat) : ∀ {w : World} {s : Nat} {c : Client}, Inv half w → Linked w s c → s ≠ me →
    (∀ x, half = some x → x ≤ s) → w.next ≤ s + depth → ∃ w', recurseRemoveClients depth w s = some w' ∧ Inv half w' ∧
      w'.client s = some { c with users := [], servers := [] } ∧ Under w w' s := by
  induction depth with
  | zero =>
    intro w s c h hs hme hhalf hdepth
    have := h.alloc_lt hs.1
    omega
  | succ depth ih =>
    intro w s c h hs hme hhalf hdepth
    -- the walk over the servers, each with what is behind it
    have hwalk : ∀ (l : List Nat) {w : World} {c : Client}, Inv half w → Linked w s c → c.servers = l → w.next ≤ s + (depth + 1) →
        ∃ w', l.foldlM (fun w t => (Exit.recurseRemoveClients depth w t).bind (qsServer · t)) w = some w' ∧ Inv half w' ∧
          w'.client s = some { c with servers := [] } ∧ Under w w' s := by
      intro l
      induction l with
      | nil => exact fun {w c} h hs hserv _ => ⟨w, rfl, h, by rw [hs.1, ← hserv], Under.refl w s⟩
      | cons t l ihl =>
        intro w c h hs hserv hdepth
        obtain ⟨ct, ht, hstatus, hp⟩ := (h.tree hs.1).servers t (by simp [hserv])
        have htme : t ≠ me := by
          rintro rfl
          simp [h.status_me ht] at hstatus
        obtain ⟨p, e, hp', hlt, -, -⟩ := (h.placed ht).up htme (by simp [hstatus])
        have hlt : s < t := by
          rw [hp, Option.some.injEq] at hp'
          omega
        have hnot : half ≠ some t := by
          intro heq
          have := hhalf t heq
          omega
        have hserv' : ct.servptr ≠ some me := by
          rw [hp]
          simpa using hme
        have hremote : ct.myConnect = false := by
          by_contra hlocal
          exact hserv' (((h.placed ht).local_link (by simpa using hlocal)).2.2 (by simp [hstatus]))
        obtain ⟨w₁, hw₁, hinv₁, ht₁, hunder₁⟩ := ih h ht htme (fun x hx => by have := hhalf x hx; omega) (by omega)
        have hs₁ : Linked w₁ s c := ⟨by rw [hunder₁.client s hlt]; exact hs.1, by rw [hunder₁.dead s (by omega)]; exact hs.2⟩
        have ht₁ : Linked w₁ t { ct with users := [], servers := [] } :=
          ⟨ht₁, by rw [hunder₁.dead t (by omega)]; exact ht.2⟩
        obtain ⟨w₂, hw₂, hd⟩ := hinv₁.qsServer_drops ht₁ htme hstatus hserv'
        have hinv₂ := hinv₁.drop ht₁ htme rfl rfl (fun hmem => by
          obtain ⟨-, c', hc', hlocal, -⟩ := ((hinv₁.sound t).abort).mp hmem
          simp [← ht₁.unique hc', hremote] at hlocal) hd
        rw [if_neg hnot] at hinv₂
        have hs₂ := hd.linked hs₁ (by omega)
        obtain ⟨w', hw', hinv', hclient, hunder⟩ := ihl hinv₂ hs₂ (by simp [Client.without, hserv])
          (by rw [hd.next, hunder₁.next]; omega)
        refine ⟨w', ?_, hinv', ?_, ((hunder₁.mono (by omega)).trans (hd.under hinv₁ ht₁ hp hlt)).trans hunder⟩
        · rw [List.foldlM_cons, hw₁]
          simpa [hw₂] using hw'
        · rw [hclient, ← hinv₁.without_server ht₁ hstatus hs₁.1]
    have hstatus : c.status ≠ .me := fun hst => hme (h.only_me hs.1 hst)
    obtain ⟨w₁, hw₁, hinv₁, hs₁, hunder₁⟩ := h.removeUsers hme hhalf c.users hs rfl
    obtain ⟨w', hw', hinv', hs', hunder⟩ := hwalk c.servers hinv₁
      (c := { c with users := [] }) ⟨hs₁, by rw [hunder₁.dead s (Nat.le_refl s)]; exact hs.2⟩ rfl (by rw [hunder₁.next]; omega)
    refine ⟨w', ?_, hinv', hs', hunder₁.trans hunder⟩
    rw [Exit.recurseRemoveClients, hs.1, Option.bind_some, if_neg hstatus, hw₁, Option.bind_some, hs₁, Option.bind_some]
    exact hw'

-- ============================================================================
-- Flags
-- ============================================================================

/-- `x`, with the fields `c`, gets other flags, and `abort_list` other members. -/
def World.reflag (w : World) (x : Nat) (c : Client) (closing dead ioError : Bool) (l : List Nat) : World := { w with
  client := Function.update w.client x (some { c with closing := closing, dead := dead, ioError := ioError })
  abortList := l }

section Reflag

variable {closing dead ioError : Bool} {l : List Nat}

theorem reflag_self (hx : Linked w x c) : Linked (w.reflag x c closing dead ioError l) x
    { c with closing := closing, dead := dead, ioError := ioError } := ⟨Function.update_self .., hx.2⟩

theorem Inv.reflag_keeps (h : Inv half w) (hx : Linked w x c) (hme : x ≠ me)
    (hother : ∀ z, z ≠ x → (half' = some z ↔ half = some z)) (hmono : half = some x → half' = some x)
    (hl : ∀ z, z ≠ x → (z ∈ l ↔ z ∈ w.abortList)) :
    Keeps half half' w (w.reflag x c closing dead ioError l) x fun _ d => d where
  ne_me := hme
  other z hz := by
    rw [Option.map_id']
    exact Function.update_of_ne hz ..
  dead _ _ := Iff.rfl
  abort := hl
  exiting := hother
  next := Nat.le_refl _
  same _ _ := rfl
  below _ _ _ _ := ⟨Iff.rfl, Iff.rfl⟩
  nodup _ _ hd := (h.tree hd).nodup
  points z d e _ _ _ _ _ he _ := by
    obtain rfl := he.unique hx
    exact ⟨_, reflag_self hx, ⟨rfl, fun hm => hm.imp_right hmono, fun l hl => .inr hl⟩, id, id⟩

/-- Who was there still is, with the same pointers. -/
theorem Keeps.reflag_found (k : Keeps half half' w (w.reflag x c closing dead ioError l) x fun _ d => d) (hx : Linked w x c)
    (hmono : half = some x → half' = some x) (hz : Linked w z d) :
    ∃ d', Linked (w.reflag x c closing dead ioError l) z d' ∧ StandsFor half half' z d d' ∧ d'.servptr = d.servptr ∧
      d'.myConnect = d.myConnect ∧ d'.link = d.link ∧ d'.users = d.users ∧ d'.servers = d.servers := by
  by_cases hzx : z = x
  · subst hzx
    obtain rfl := hz.unique hx
    exact ⟨_, reflag_self hx, ⟨rfl, fun hm => hm.imp_right hmono, fun l hl => .inr hl⟩, rfl, rfl, rfl, rfl, rfl⟩
  · exact ⟨d, k.to hz hzx, ⟨rfl, fun hm => hm.imp_right (k.exiting z hzx).mpr, fun l hl => .inr hl⟩, rfl, rfl, rfl, rfl, rfl⟩

theorem Keeps.reflag_holds (k : Keeps half half' w (w.reflag x c closing dead ioError l) x fun _ d => d) (hx : Linked w x c)
    (hmono : half = some x → half' = some x) {l' : List Nat} {P Q : Client → Prop} (h : Holds w l' P)
    (hP : ∀ d d' : Client, d'.status = d.status → d'.servptr = d.servptr → d'.myConnect = d.myConnect → d'.link = d.link → P d → Q d') :
    Holds (w.reflag x c closing dead ioError l) l' Q := by
  refine ⟨h.1, fun z hz => ?_⟩
  obtain ⟨d, hd, hp⟩ := h.2 z hz
  obtain ⟨d', hd', hs, hserv, hmy, hlink, -⟩ := k.reflag_found hx hmono hd
  exact ⟨d', hd', hP d d' hs.status hserv hmy hlink hp⟩

theorem Keeps.reflag_placed (k : Keeps half half' w (w.reflag x c closing dead ioError l) x fun _ d => d) (h : Inv half w)
    (hx : Linked w x c) (hmono : half = some x → half' = some x)
    (hremote : half' ≠ some x → c.myConnect = false → dead = false ∧ closing = false) :
    Placed half' (w.reflag x c closing dead ioError l) x { c with closing := closing, dead := dead, ioError := ioError } := by
  have hold := h.placed hx
  constructor
  case remote => exact fun hne hmy _ => hremote hne hmy
  case local_link => exact hold.local_link
  case remote_link =>
    intro hmy hme
    refine (hold.remote_link hmy hme).imp (fun ⟨heq, hnone⟩ => ⟨hmono heq, hnone⟩) ?_
    rintro ⟨hst, l, e, hl, he, hserver, hmy, p, g, hp, hg, hpl⟩
    obtain ⟨e', he', hs, -⟩ := k.reflag_found hx hmono he
    obtain ⟨g', hg', -, -, -, hlink, -⟩ := k.reflag_found hx hmono hg
    exact ⟨hst, l, e', hl, he', hs.status.trans hserver, hs.myConnect hmy, p, g', hp, hg', by rwa [hlink]⟩
  case up =>
    intro hme hst
    obtain ⟨p, e, hp, hlt, he, hkind, hbelow⟩ := hold.up hme hst
    obtain ⟨e', he', hs, -, -, -, hu, hv⟩ := k.reflag_found hx hmono he
    refine ⟨p, e', hp, hlt, he', by rwa [hs.status], hbelow.imp (fun hb => ⟨hmono hb.1, hb.2⟩) ?_⟩
    rw [Client.Below, Client.Below, hu, hv]
    exact id

/-- The flags of a client are written, and `abort_list` with them. -/
theorem Inv.reflag (h : Inv half w) (hx : Linked w x c) (hme : x ≠ me) (closing dead ioError : Bool)
    (hother : ∀ z, z ≠ x → (half' = some z ↔ half = some z)) (hmono : half = some x → half' = some x)
    (hhalf : half' = some x → closing = true)
    (hremote : half' ≠ some x → c.myConnect = false → dead = false ∧ closing = false)
    (hl : l.Nodup) (hlother : ∀ z, z ≠ x → (z ∈ l ↔ z ∈ w.abortList))
    (hlself : x ∈ l ↔ half' ≠ some x ∧ c.myConnect = true ∧ closing = true) :
    Inv half' (w.reflag x c closing dead ioError l) := by
  have k : Keeps half half' w (w.reflag x c closing dead ioError l) x fun _ d => d :=
    h.reflag_keeps hx hme hother hmono hlother
  have hself : Linked (w.reflag x c closing dead ioError l) x
      { c with closing := closing, dead := dead, ioError := ioError } := reflag_self hx
  have hchild : ∀ {y z st}, (∃ e, Linked w y e ∧ e.status = st ∧ e.servptr = some z) →
      ∃ e, Linked (w.reflag x c closing dead ioError l) y e ∧ e.status = st ∧ e.servptr = some z := by
    rintro y z st ⟨e, he, hst, hp⟩
    obtain ⟨e', he', hs, hserv, -⟩ := k.reflag_found hx hmono he
    exact ⟨e', he', hs.status.trans hst, hserv.trans hp⟩
  refine k.inv h (fun z d _ hd => ?_) ?_ ⟨h.nodup.1, hl⟩ ?_
  · exact ⟨fun hmem => hchild ((h.tree hd).users x hmem), fun hmem => hchild ((h.tree hd).servers x hmem)⟩
  · constructor
    case only_me =>
      intro d hd hst
      obtain rfl : _ = d := Option.some.inj (hself.1.symm.trans hd)
      exact h.only_me hx.1 hst
    case alloc_lt => exact fun _ _ => h.alloc_lt hx.1
    case dead => exact fun hmem => absurd hmem hx.2
    case half_closing => exact fun heq => ⟨_, hself, hhalf heq, hme⟩
    case abort =>
      refine hlself.trans (and_congr_right fun _ => ⟨fun hflags => ⟨_, hself, hflags⟩, fun ⟨d, hd, hflags⟩ => ?_⟩)
      rwa [← hself.unique hd] at hflags
    case placed =>
      intro d hd
      obtain rfl := hself.unique hd
      exact k.reflag_placed h hx hmono hremote
    case tree =>
      intro d hd
      obtain rfl : _ = d := Option.some.inj (hself.1.symm.trans hd)
      have hold := h.tree hx.1
      exact ⟨hold.nodup, fun y hy => hchild (hold.users y hy), fun y hy => hchild (hold.servers y hy)⟩
  · constructor
    case unknown => exact k.reflag_holds hx hmono h.lists.unknown fun _ _ hst _ _ _ hp => hst.trans hp
    case lclient =>
      exact k.reflag_holds hx hmono h.lists.lclient fun _ _ hst hserv hmy _ hp => by rwa [hst, hserv, hmy]
    case serv => exact k.reflag_holds hx hmono h.lists.serv fun _ _ hst hserv _ hlink hp => by rwa [hst, hserv, hlink]
    case globalServ => exact k.reflag_holds hx hmono h.lists.globalServ fun _ _ hst _ _ hlink hp => by rwa [hst, hlink]

end Reflag

-- ============================================================================
-- Writes that fail
-- ============================================================================

/-- What a write that fails leaves as it was: all but the flags of connections of our own that are
    not closing. -/
structure Marks (w w' : World) : Prop where
  linked : ∀ x c, Linked w x c → c.closing = true → Linked w' x c
  kept : ∀ x, (∃ c, Linked w x c) → ∃ c, Linked w' x c
  dead : w'.deadList = w.deadList
  abort : ∀ x ∈ w.abortList, x ∈ w'.abortList
  next : w'.next = w.next

theorem Marks.refl (w : World) : Marks w w := ⟨fun _ _ h _ => h, fun _ h => h, rfl, fun _ h => h, rfl⟩

theorem Marks.trans {w'' : World} (h : Marks w w') (h' : Marks w' w'') : Marks w w'' where
  linked := fun x c hx hc => h'.linked x c (h.linked x c hx hc) hc
  kept := fun x hx => h'.kept x (h.kept x hx)
  dead := h'.dead.trans h.dead
  abort := fun x hx => h'.abort x (h.abort x hx)
  next := h'.next.trans h.next

theorem Inv.sendLinebuf (h : Inv half w) (hx : Linked w x c) : ∃ w', sendLinebuf w x = some w' ∧ Inv half w' ∧ Marks w w' := by
  rw [Exit.sendLinebuf, hx.1, Option.bind_some]
  by_cases hsend : c.status = .me ∨ (!c.myConnect) = true ∨ c.ioError = true
  · exact ⟨w, if_pos hsend, h, Marks.refl w⟩
  · rw [if_neg hsend, deadLink, hx.1, Option.bind_some]
    by_cases hgone : (c.dead || c.closing || decide (c.status = .me)) = true
    · exact ⟨w, if_pos hgone, h, Marks.refl w⟩
    · have hlocal : c.myConnect = true := by grind
      have hclosing : c.closing = false := by grind
      have hhalf : half ≠ some x := by
        intro heq
        obtain ⟨d, hd, hc, -⟩ := (h.sound x).half_closing heq
        grind [hx.unique hd]
      have hnot : x ∉ w.abortList := by
        intro hmem
        obtain ⟨-, d, hd, -, hc⟩ := ((h.sound x).abort).mp hmem
        grind [hx.unique hd]
      rw [if_neg hgone, World.modify_of_some hx.1]
      have hme : x ≠ me := by
        rintro rfl
        exact hsend (.inl (h.status_me hx))
      refine ⟨_, rfl, h.reflag hx hme true true true (fun _ _ => Iff.rfl) id (fun heq => absurd heq hhalf) ?_
        (l := x :: w.abortList) (List.nodup_cons.mpr ⟨hnot, h.nodup.2⟩) (fun z hz => by simp [hz]) (by simp [hhalf, hlocal]), ?_⟩
      · intro _ hremote
        simp [hlocal] at hremote
      · refine ⟨fun y d hy hc => ⟨?_, hy.2⟩, fun y ⟨d, hy⟩ => ?_, rfl, fun y hy => .tail _ hy, rfl⟩
        · show Function.update w.client x _ y = some d
          rw [Function.update_of_ne (by rintro rfl; grind [hx.unique hy])]
          exact hy.1
        · by_cases hyx : y = x
          · subst hyx
            exact ⟨_, Function.update_self .., hx.2⟩
          · refine ⟨d, ?_, hy.2⟩
            show Function.update w.client x _ y = some d
            rw [Function.update_of_ne hyx]
            exact hy.1

theorem World.found_iff : w.found x = true ↔ x ≠ me ∧ ∃ c, Linked w x c := by
  simp only [World.found, Linked, Option.isSome_iff_exists, Bool.and_eq_true, decide_eq_true_eq]
  grind

theorem Inv.sendLinebufs (l : List Nat) : ∀ {w : World}, Inv half w → (∀ x ∈ l, ∃ c, Linked w x c) →
    ∃ w', l.foldlM Exit.sendLinebuf w = some w' ∧ Inv half w' ∧ Marks w w' := by
  induction l with
  | nil => exact fun h _ => ⟨_, rfl, h, Marks.refl _⟩
  | cons x l ih =>
    intro w h hl
    obtain ⟨c, hx⟩ := hl x (by simp)
    obtain ⟨w₁, hw₁, hinv, hm⟩ := h.sendLinebuf hx
    obtain ⟨w', hw', hinv', hm'⟩ := ih hinv fun y hy => hm.kept y (hl y (by simp [hy]))
    exact ⟨w', by rw [List.foldlM_cons, hw₁]; exact hw', hinv', hm.trans hm'⟩

theorem Inv.failWrites (h : Inv half w) (fails : List Nat) :
    ∃ w', failWrites w fails = some w' ∧ Inv half w' ∧ Marks w w' := by
  refine Inv.sendLinebufs _ h fun x hx => ?_
  exact (World.found_iff.mp (List.mem_filter.mp hx).2).2

-- ============================================================================
-- Exits
-- ============================================================================

/-- `x` has exited; what had exited before still has. -/
structure Exits (w w' : World) (x : Nat) : Prop where
  inv : Inv none w'
  gone : x ∈ w'.deadList
  buried : ∀ z ∈ w.deadList, z ∈ w'.deadList
  abort : ∀ z ∈ w.abortList, z ∈ w'.abortList
  next : w'.next = w.next

theorem Drops.exits (hd : Drops w w' x) (h : Inv (some x) w) (hx : Linked w x c) (hme : x ≠ me) (hu : c.users = [])
    (hs : c.servers = []) : Exits w w' x := by
  have hinv := h.drop hx hme hu hs (fun hmem => by simpa using (((h.sound x).abort).mp hmem).1) hd
  rw [if_pos rfl] at hinv
  exact ⟨hinv, by simp [hd.dead], fun z hz => by simp [hd.dead, hz], fun z hz => by rwa [hd.abort], hd.next⟩

/-- `close_connection`, and the client is buried. -/
theorem closed_eq (h : w.client x = some c) : (closeConnection w x).bind (bury · x) = some { w with
    client := Function.update w.client x (some { c with link := none, myConnect := false, ioError := true, dead := true })
    deadList := x :: w.deadList } := by
  rw [closeConnection, World.modify_of_some h, Option.bind_some, bury_eq (Function.update_self ..), Function.update_idem]

theorem Inv.exitUnknownClient (h : Inv (some x) w) (hx : Linked w x c) (hme : x ≠ me) (hstatus : c.status = .unknown) :
    ∃ w', exitUnknownClient w x = some w' ∧ Exits w w' x := by
  have hleaf := h.leaf hx (by simp [hstatus]) hme
  rw [Exit.exitUnknownClient, closed_eq (w := { w with unknownList := w.unknownList.erase x }) hx.1]
  refine ⟨_, rfl, Drops.exits ⟨⟨c, _, hx.1, Function.update_self .., rfl, rfl, rfl⟩, fun z hz => ?_, rfl, rfl, rfl, ?_, ?_, ?_, rfl⟩
    h hx hme hleaf.1 hleaf.2⟩
  · show Function.update w.client x _ z = _
    rw [Function.update_of_ne hz]
    cases hd : w.client z with
    | none => rfl
    | some d =>
      obtain ⟨hu, hs⟩ := h.not_mem_of_status hx hd
      exact congrArg some (Client.without_eq (hu (by simp [hstatus])) (hs (by simp [hstatus]))).symm
  · exact (List.erase_of_not_mem (h.lists.lclient.not_mem hx (by simp [hstatus]))).symm
  · exact (List.erase_of_not_mem (h.lists.serv.not_mem hx (by simp [hstatus]))).symm
  · exact (List.erase_of_not_mem (h.lists.globalServ.not_mem hx (by simp [hstatus]))).symm

theorem Inv.exitLocalClient (h : Inv (some x) w) (hx : Linked w x c) (hme : x ≠ me) (hstatus : c.status = .client)
    (hlocal : c.myConnect = true) : ∃ w', exitLocalClient w x = some w' ∧ Exits w w' x := by
  have hleaf := h.leaf hx (by simp [hstatus]) hme
  obtain ⟨-, -, hserv⟩ := (h.placed hx).local_link hlocal
  obtain ⟨m, hm, -⟩ := h.me_linked
  have hclient : Function.update w.client me (some { m with users := m.users.erase x }) x = some c := by
    rw [Function.update_of_ne hme]
    exact hx.1
  rw [Exit.exitLocalClient, World.modify_of_some (w := { w with lclientList := w.lclientList.erase x }) hm.1, Option.bind_some,
    closed_eq (c := c) hclient]
  refine ⟨_, rfl, Drops.exits ⟨⟨c, _, hx.1, Function.update_self .., rfl, rfl, rfl⟩,
    fun z hz => h.others hx (hserv (by simp [hstatus])) hm.1 (h.without_user hx hstatus hm.1) hz, rfl, rfl, ?_, rfl, ?_, ?_, rfl⟩
    h hx hme hleaf.1 hleaf.2⟩
  · exact (List.erase_of_not_mem (h.lists.unknown.not_mem hx (by simp [hstatus]))).symm
  · exact (List.erase_of_not_mem (h.lists.serv.not_mem hx (by simp [hstatus]))).symm
  · exact (List.erase_of_not_mem (h.lists.globalServ.not_mem hx (by simp [hstatus]))).symm

/-- Behind another server is not behind ourselves. -/
theorem Inv.servptr_ne_me (h : Inv half w) (hx : Linked w x c) (hme : x ≠ me) (hstatus : c.status = .server)
    (hremote : c.myConnect = false) (hlink : c.link ≠ none) : c.servptr ≠ some me := by
  rcases (h.placed hx).remote_link hremote hme with ⟨-, hnone⟩ | ⟨-, l, d, -, hl, hserver, -, p, e, hp, he, hpl⟩
  · exact absurd hnone (by simp [hlink, hstatus])
  · intro heq
    obtain rfl : p = me := by grind
    rcases hpl with rfl | ⟨hne, -⟩
    · have := h.status_me hl
      simp [hserver] at this
    · exact hne rfl

theorem Inv.exitRemoteClient (h : Inv (some x) w) (hx : Linked w x c) (hme : x ≠ me) (hstatus : c.status = .client)
    (hremote : c.myConnect = false) : ∃ w', exitRemoteClient w x = some w' ∧ Exits w w' x := by
  have hleaf := h.leaf hx (by simp [hstatus]) hme
  obtain ⟨w', hw', hd⟩ := h.exitRemoteClient_drops hx hme hstatus hremote
  exact ⟨w', hw', hd.exits h hx hme hleaf.1 hleaf.2⟩

/-- What is sent to a client finds its link. -/
theorem Inv.link_found (h : Inv half w) (hx : Linked w x c) (hme : x ≠ me)
    (hhalf : half ≠ some x ∨ c.link ≠ none ∧ c.status = .server) : ∃ l d, c.link = some l ∧ Linked w l d := by
  cases hlocal : c.myConnect with
  | true => exact ⟨x, c, ((h.placed hx).local_link hlocal).1, hx⟩
  | false =>
    rcases (h.placed hx).remote_link hlocal hme with ⟨heq, hnone⟩ | ⟨-, l, d, hl, hd, -⟩
    · rcases hnone with hnone | hnone <;> simp [heq, hnone] at hhalf
    · exact ⟨l, d, hl, hd⟩

theorem sendtoOne_found {l : Nat} (hx : w.client x = some c) (hl : c.link = some l) (hd : w.client l = some d) :
    sendtoOne w x false = some w := by
  simp [sendtoOne, hx, hl, hd]

/-- An exit, once all that is behind the server has exited. -/
theorem Exits.of_under {w₁ : World} (hu : Under w w₁ x) (h : Exits w₁ w' x) : Exits w w' x where
  inv := h.inv
  gone := h.gone
  buried := fun z hz => h.buried z (hu.buried z hz)
  abort := fun z hz => h.abort z (by rwa [hu.abort])
  next := h.next.trans hu.next

theorem Inv.exitRemoteServer (h : Inv (some x) w) (hx : Linked w x c) (hme : x ≠ me) (hstatus : c.status = .server)
    (hremote : c.myConnect = false) (hlink : c.link ≠ none) : ∃ w', exitRemoteServer w x = some w' ∧ Exits w w' x := by
  obtain ⟨w₁, hw₁, hinv, hclient, hunder⟩ := h.recurseRemoveClients w.next hx hme (by simp) (by omega)
  have hx₁ : Linked w₁ x { c with users := [], servers := [] } :=
    ⟨hclient, by rw [hunder.dead x (Nat.le_refl x)]; exact hx.2⟩
  obtain ⟨p, e, hp, hlt, he, -, -⟩ := (hinv.placed hx₁).up hme (by simp [hstatus])
  obtain ⟨l, d, hl, hd⟩ := hinv.link_found hx₁ hme (.inr ⟨hlink, hstatus⟩)
  obtain ⟨w', hw', hdrops⟩ := hinv.qsServer_drops hx₁ hme hstatus (h.servptr_ne_me (c := c) hx hme hstatus hremote hlink)
  refine ⟨w', ?_, .of_under hunder (hdrops.exits hinv hx₁ hme rfl rfl)⟩
  have hxp : x ≠ p := by omega
  have hsend : ∃ d', Function.update w₁.client p (some { e with servers := e.servers.erase x }) l = some d' := by
    by_cases hlp : l = p
    · exact ⟨_, by rw [hlp, Function.update_self]⟩
    · exact ⟨d, by rw [Function.update_of_ne hlp]; exact hd.1⟩
  obtain ⟨d', hd'⟩ := hsend
  rw [qsServer, unlinkServer_eq hx₁.1 hp he.1, Option.bind_some] at hw'
  rw [Exit.exitRemoteServer, hw₁, Option.bind_some, unlinkServer_eq hx₁.1 hp he.1, Option.bind_some]
  have hsame : Function.update w₁.client p (some { e with servers := e.servers.erase x }) x =
      some { c with users := [], servers := [] } := by
    rw [Function.update_of_ne hxp]
    exact hx₁.1
  refine Eq.trans (congrArg (Option.bind · (bury · x)) (sendtoOne_found hsame hl hd')) ?_
  exact hw'

/-- The server has left the lists of servers, and its connection is closed. -/
def World.closeServer (w : World) (x : Nat) (c m : Client) : World := { w with
  client := Function.update (Function.update w.client me (some { m with servers := m.servers.erase x })) x
    (some { c with link := none, myConnect := false, ioError := true })
  servList := w.servList.erase x
  globalServList := w.globalServList.erase x }

theorem Inv.closeServer_keeps (h : Inv (some x) w) (hx : Linked w x c) (hme : x ≠ me) (hstatus : c.status = .server)
    (hlocal : c.myConnect = true) {m : Client} (hm : Linked w me m) :
    Keeps (some x) (some x) w (w.closeServer x c m) x fun _ d => d.without x where
  ne_me := hme
  other z hz := h.others hx (((h.placed hx).local_link hlocal).2.2 (by simp [hstatus])) hm.1 (h.without_server hx hstatus hm.1) hz
  dead _ _ := Iff.rfl
  abort _ _ := Iff.rfl
  exiting _ _ := Iff.rfl
  next := Nat.le_refl _
  same _ _ := rfl
  below _ d _ hy := d.mem_without hy
  nodup _ _ hd := Client.without_nodup (h.tree hd) x
  points z d e _ _ _ _ _ he _ := by
    obtain rfl := he.unique hx
    refine ⟨_, ⟨Function.update_self .., hx.2⟩, ⟨rfl, fun _ => .inr rfl, fun l hl => .inl ?_⟩, id, id⟩
    have := ((h.placed hx).local_link hlocal).1
    exact Option.some.inj (this.symm.trans hl)

/-- `exit_local_server` up to the walk. -/
theorem Inv.closeServer (h : Inv (some x) w) (hx : Linked w x c) (hme : x ≠ me) (hstatus : c.status = .server)
    (hlocal : c.myConnect = true) {m : Client} (hm : Linked w me m) : Inv (some x) (w.closeServer x c m) := by
  have k := h.closeServer_keeps hx hme hstatus hlocal hm
  have hserv : c.servptr = some me := ((h.placed hx).local_link hlocal).2.2 (by simp [hstatus])
  have hself : Linked (w.closeServer x c m) x { c with link := none, myConnect := false, ioError := true } :=
    ⟨Function.update_self .., hx.2⟩
  have hclosing : c.closing = true := by
    obtain ⟨d, hd, hclosing, -⟩ := (h.sound x).half_closing rfl
    rwa [hx.unique hd]
  refine k.inv h (fun z d _ hd => ?_) ?_ h.nodup ?_
  · have hnot := Client.not_mem_without (h.tree hd) x
    exact ⟨fun hmem => absurd hmem hnot.1, fun hmem => absurd hmem hnot.2⟩
  · constructor
    case only_me =>
      intro d hd hst
      obtain rfl : _ = d := Option.some.inj (hself.1.symm.trans hd)
      exact h.only_me hx.1 hst
    case alloc_lt => exact fun _ _ => h.alloc_lt hx.1
    case dead => exact fun hmem => absurd hmem hx.2
    case half_closing => exact fun _ => ⟨_, hself, hclosing, hme⟩
    case abort => exact ⟨fun hmem => absurd rfl ((h.sound x).abort.mp hmem).1, fun hne => absurd rfl hne.1⟩
    case placed =>
      intro d hd
      obtain rfl := hself.unique hd
      have hmstatus : m.status = .me := h.status_me hm
      refine ⟨fun hne => absurd rfl hne, by simp, fun _ _ => .inl ⟨rfl, .inl rfl⟩, fun _ _ => ?_⟩
      exact ⟨me, _, hserv, Nat.pos_of_ne_zero hme, k.to hm (Ne.symm hme), .inl hmstatus, .inl ⟨rfl, rfl⟩⟩
    case tree =>
      intro d hd
      obtain rfl : _ = d := Option.some.inj (hself.1.symm.trans hd)
      have hchild : ∀ {y st}, (∃ e, Linked w y e ∧ e.status = st ∧ e.servptr = some x) →
          ∃ e, Linked (w.closeServer x c m) y e ∧ e.status = st ∧ e.servptr = some x := by
        rintro y st ⟨e, he, hst, hp⟩
        have hyx : y ≠ x := by
          rintro rfl
          obtain rfl := he.unique hx
          exact hme (Option.some.inj (hp.symm.trans hserv))
        exact ⟨_, k.to he hyx, hst, hp⟩
      have hold := h.tree hx.1
      exact ⟨hold.nodup, fun y hy => hchild (hold.users y hy), fun y hy => hchild (hold.servers y hy)⟩
  · constructor
    case unknown =>
      exact k.holds h.lists.unknown (h.lists.unknown.not_mem hx (by simp [hstatus])) fun z d => (k.listed z d).1
    case lclient =>
      exact k.holds h.lists.lclient (h.lists.lclient.not_mem hx (by simp [hstatus])) fun z d => (k.listed z d).2.1
    case serv => exact k.holds_erase h.lists.serv fun z d => (k.listed z d).2.2.1
    case globalServ => exact k.holds_erase h.lists.globalServ fun z d => (k.listed z d).2.2.2

theorem Inv.exitLocalServer (h : Inv (some x) w) (hx : Linked w x c) (hme : x ≠ me) (hstatus : c.status = .server)
    (hlocal : c.myConnect = true) : ∃ w', exitLocalServer w x = some w' ∧ Exits w w' x := by
  obtain ⟨m, hm, -⟩ := h.me_linked
  have hserv := ((h.placed hx).local_link hlocal).2.2 (by simp [hstatus])
  have hinv := h.closeServer hx hme hstatus hlocal hm
  have hclient : Function.update w.client me (some { m with servers := m.servers.erase x }) x = some c := by
    rw [Function.update_of_ne hme]
    exact hx.1
  rw [Exit.exitLocalServer, unlinkServer_eq (w := { w with
      servList := w.servList.erase x, globalServList := w.globalServList.erase x }) hx.1 hserv hm.1, Option.bind_some,
    closeConnection, World.modify_of_some (c := c) hclient, Option.bind_some]
  have hx₁ : Linked (w.closeServer x c m) x { c with link := none, myConnect := false, ioError := true } :=
    ⟨Function.update_self .., hx.2⟩
  obtain ⟨w₂, hw₂, hinv₂, hclient₂, hunder⟩ := hinv.recurseRemoveClients w.next hx₁ hme (by simp) (Nat.le_add_left ..)
  have hx₂ : Linked w₂ x { c with link := none, myConnect := false, ioError := true, users := [], servers := [] } :=
    ⟨hclient₂, by rw [hunder.dead x (Nat.le_refl x)]; exact hx.2⟩
  -- it is not on the lists any more, as its link is gone
  have hnot : ∀ z d, w₂.client z = some d → x ∉ d.users ∧ x ∉ d.servers := by
    intro z d hz
    by_cases hzme : z = me
    · subst hzme
      refine ⟨(hinv₂.not_mem_of_status hx₂ hz).1 (by simp [hstatus]), ?_⟩
      rw [hunder.client me (Nat.pos_of_ne_zero hme)] at hz
      change Function.update (Function.update w.client me _) x _ me = some d at hz
      rw [Function.update_of_ne (Ne.symm hme), Function.update_self, Option.some.injEq] at hz
      subst hz
      exact (h.tree hm.1).nodup.2.not_mem_erase
    · exact hinv₂.not_mem_of_servptr hx₂ hz (by simpa [hserv] using Ne.symm hzme)
  have hexits : Exits _ { w₂ with
      client := Function.update w₂.client x (some { c with
        link := none, myConnect := false, ioError := true, users := [], servers := [], dead := true })
      deadList := x :: w₂.deadList } x := .of_under hunder ?_
  · exact ⟨_, (congrArg (Option.bind · (bury · x)) hw₂).trans (bury_eq hx₂.1), hexits.inv, hexits.gone, hexits.buried,
      hexits.abort, hexits.next⟩
  · refine Drops.exits ⟨⟨_, _, hx₂.1, Function.update_self .., rfl, rfl, rfl⟩, fun z hz => ?_, rfl, rfl, ?_, ?_, ?_, ?_, rfl⟩
      hinv₂ hx₂ hme rfl rfl
    · show Function.update w₂.client x _ z = _
      rw [Function.update_of_ne hz]
      cases hd : w₂.client z with
      | none => rfl
      | some d => exact congrArg some (Client.without_eq (hnot z d hd).1 (hnot z d hd).2).symm
    · exact (List.erase_of_not_mem (hinv₂.lists.unknown.not_mem hx₂ (by simp [hstatus]))).symm
    · exact (List.erase_of_not_mem (hinv₂.lists.lclient.not_mem hx₂ (by simp [hstatus]))).symm
    · exact (List.erase_of_not_mem (hinv₂.lists.serv.not_mem hx₂ (by simp))).symm
    · exact (List.erase_of_not_mem (hinv₂.lists.globalServ.not_mem hx₂ (by simp))).symm

-- ============================================================================
-- `exit_client` and the two events
-- ============================================================================

theorem Exits.of_marks {w₁ : World} (hm : Marks w w₁) (h : Exits w₁ w' x) : Exits w w' x where
  inv := h.inv
  gone := h.gone
  buried := fun z hz => h.buried z (by rwa [hm.dead])
  abort := fun z hz => h.abort z (hm.abort z hz)
  next := h.next.trans hm.next

/-- `exit_client`, once all is sound but the client that exits. -/
theorem Inv.exitClosing (h : Inv (some x) (w.reflag x c true c.dead c.ioError w.abortList)) (hx : Linked w x c) (hme : x ≠ me)
    (hclosing : c.closing = false) (hstatus : c.status ≠ .me)
    (hremote : c.myConnect = false → c.status ≠ .unknown ∧ c.link ≠ none) (fails : List Nat) :
    ∃ w', exitClient w x fails = some w' ∧ Exits w w' x := by
  obtain ⟨w₁, hw₁, hinv, hmarks⟩ := h.failWrites fails
  have hx₁ : Linked w₁ x { c with closing := true } := hmarks.linked x _ (reflag_self hx) rfl
  have hdispatch : ∀ o : Option World, (∃ w', o = some w' ∧ Exits w₁ w' x) → ∃ w', o = some w' ∧ Exits w w' x := by
    rintro o ⟨w', hw', hexits⟩
    have := hexits.of_marks hmarks
    exact ⟨w', hw', this.inv, this.gone, this.buried, this.abort, this.next⟩
  change Exit.failWrites { w with client := Function.update w.client x (some { c with closing := true }) } fails = some w₁ at hw₁
  rw [Exit.exitClient, hx.1, Option.bind_some, if_neg (by simp [hclosing]), World.modify_of_some hx.1, Option.bind_some, hw₁,
    Option.bind_some]
  apply hdispatch
  cases hlocal : c.myConnect with
  | true =>
    cases hst : c.status with
    | me => exact absurd hst hstatus
    | unknown => exact hinv.exitUnknownClient hx₁ hme hst
    | server => exact hinv.exitLocalServer hx₁ hme hst hlocal
    | client => exact hinv.exitLocalClient hx₁ hme hst hlocal
  | false =>
    cases hst : c.status with
    | me => exact absurd hst hstatus
    | unknown => exact absurd hst (hremote hlocal).1
    | server => exact hinv.exitRemoteServer hx₁ hme hst hlocal (hremote hlocal).2
    | client => exact hinv.exitRemoteClient hx₁ hme hst hlocal

/-- `exit_client` for a client that is not closing. -/
theorem Inv.exitClient (h : Inv none w) (hx : Linked w x c) (hme : x ≠ me) (hclosing : c.closing = false) (fails : List Nat) :
    ∃ w', exitClient w x fails = some w' ∧ Exits w w' x := by
  have hnot : x ∉ w.abortList := by
    intro hmem
    obtain ⟨-, d, hd, -, hc⟩ := (h.sound x).abort.mp hmem
    simp [← hx.unique hd, hclosing] at hc
  have hclose : Inv (some x) (w.reflag x c true c.dead c.ioError w.abortList) :=
    h.reflag hx hme true c.dead c.ioError (fun z hz => by simp [Ne.symm hz]) (by simp) (fun _ => rfl)
      (by simp) h.nodup.2 (fun _ _ => Iff.rfl) (by simp [hnot])
  refine hclose.exitClosing hx hme hclosing (fun hst => hme (h.only_me hx.1 hst)) (fun hremote => ?_) fails
  rcases (h.placed hx).remote_link hremote hme with ⟨hhalf, -⟩ | ⟨hst, l, -, hl, -⟩
  · simp at hhalf
  · exact ⟨hst, by simp [hl]⟩

/-- One on `abort_list` exits in the walk over it. -/
theorem Inv.exitAborted (h : Inv none w) (hx : x ∈ w.abortList) (fails : List Nat) :
    ∃ w', exitAborted fails w x = some w' ∧ Inv none w' ∧ x ∈ w'.deadList ∧ (∀ z ∈ w.deadList, z ∈ w'.deadList) ∧
      ∀ z ∈ w.abortList, z ≠ x → z ∈ w'.abortList := by
  obtain ⟨-, c, hc, hlocal, hclosing⟩ := ((h.sound x).abort).mp hx
  have hme : x ≠ me := ((h.placed hc).local_link hlocal).2.1
  have hinv : Inv none (w.reflag x c false c.dead c.ioError (w.abortList.erase x)) :=
    h.reflag hc hme false c.dead c.ioError (fun _ _ => Iff.rfl) id (by simp) (by simp [hlocal]) (h.nodup.2.erase x)
      (fun z hz => List.mem_erase_of_ne hz) (by simp [h.nodup.2.not_mem_erase])
  obtain ⟨w', hw', hexits⟩ := hinv.exitClient (reflag_self hc) hme rfl fails
  refine ⟨w', ?_, hexits.inv, hexits.gone, hexits.buried, fun z hz hzx => hexits.abort z ((List.mem_erase_of_ne hzx).mpr hz)⟩
  rw [Exit.exitAborted, World.modify_of_some (w := { w with abortList := w.abortList.erase x }) hc.1, Option.bind_some]
  exact hw'

/-- `exit_aborted_clients`: all that were on `abort_list` have exited. -/
theorem Inv.exitAborteds (fails l : List Nat) : ∀ {w : World}, Inv none w → l.Nodup → (∀ x ∈ l, x ∈ w.abortList) →
    ∃ w', l.foldlM (Exit.exitAborted fails) w = some w' ∧ Inv none w' ∧ (∀ z ∈ w.deadList, z ∈ w'.deadList) ∧
      ∀ x ∈ l, x ∈ w'.deadList := by
  induction l with
  | nil => exact fun {w} h _ _ => ⟨w, rfl, h, fun _ hz => hz, by simp⟩
  | cons x l ih =>
    intro w h hnodup hl
    obtain ⟨hxl, hnodup⟩ := List.nodup_cons.mp hnodup
    obtain ⟨w₁, hw₁, hinv, hgone, hburied, hleft⟩ := h.exitAborted (hl x (by simp)) fails
    obtain ⟨w', hw', hinv', hburied', hall⟩ := ih hinv hnodup fun y hy =>
      hleft y (hl y (by simp [hy])) (by rintro rfl; exact hxl hy)
    refine ⟨w', by rw [List.foldlM_cons, hw₁]; exact hw', hinv', fun z hz => hburied' z (hburied z hz), ?_⟩
    rintro y (_ | ⟨_, hy⟩)
    · exact hburied' x hgone
    · exact hall y hy

/-- `free_client` for one on `dead_list`. -/
theorem Inv.freeExited (h : Inv none w) (hx : x ∈ w.deadList) : ∃ w', freeExited w x = some w' ∧ Inv none w' ∧
    w'.deadList = w.deadList.erase x ∧ w'.client = Function.update w.client x none := by
  obtain ⟨c, hc⟩ := Option.isSome_iff_exists.mp ((h.sound x).dead hx)
  have hnot : ∀ d, ¬Linked w x d := fun d hd => hd.2 hx
  have k : Keeps none none w { w with client := Function.update w.client x none, deadList := w.deadList.erase x } x fun _ d => d :=
    { ne_me := by
        obtain ⟨m, hm, -⟩ := h.me_linked
        rintro rfl
        exact hm.2 hx
      other := fun z hz => by
        rw [Option.map_id']
        exact Function.update_of_ne hz ..
      dead := fun z hz => List.mem_erase_of_ne hz
      abort := fun _ _ => Iff.rfl
      exiting := fun _ _ => Iff.rfl
      next := Nat.le_refl _
      same := fun _ _ => rfl
      below := fun _ _ _ _ => ⟨Iff.rfl, Iff.rfl⟩
      nodup := fun _ _ hd => (h.tree hd).nodup
      points := fun _ _ e _ _ _ _ _ he => absurd he (hnot e) }
  have hgone : ∀ {d}, ¬Function.update w.client x none x = some d := by simp
  have hself : Sound none { w with client := Function.update w.client x none, deadList := w.deadList.erase x } x :=
    { only_me := fun d hd => absurd hd hgone
      alloc_lt := fun d hd => absurd hd hgone
      dead := fun hmem => absurd hmem h.nodup.1.not_mem_erase
      half_closing := by simp
      abort := by
        refine (h.sound x).abort.trans (and_congr_right fun _ => ⟨fun ⟨d, hd, _⟩ => absurd hd (hnot d), fun ⟨d, hd, _⟩ => ?_⟩)
        exact absurd hd.1 hgone
      placed := fun d hd => absurd hd.1 hgone
      tree := fun d hd => absurd hd hgone }
  have hoff : ∀ {l : List Nat} {P : Client → Prop}, Holds w l P → x ∉ l := by
    intro l P hl hmem
    obtain ⟨d, hd, -⟩ := hl.2 x hmem
    exact hnot d hd
  refine ⟨_, by rw [Exit.freeExited, hc]; rfl, k.inv h (fun z d _ hz => ?_) hself ⟨h.nodup.1.erase x, h.nodup.2⟩ ?_, rfl, rfl⟩
  · constructor
    · intro hmem
      obtain ⟨e, he, -⟩ := (h.tree hz).users x hmem
      exact absurd he (hnot e)
    · intro hmem
      obtain ⟨e, he, -⟩ := (h.tree hz).servers x hmem
      exact absurd he (hnot e)
  · exact ⟨k.holds h.lists.unknown (hoff h.lists.unknown) fun _ _ => id, k.holds h.lists.lclient (hoff h.lists.lclient) fun _ _ => id,
      k.holds h.lists.serv (hoff h.lists.serv) fun _ _ => id, k.holds h.lists.globalServ (hoff h.lists.globalServ) fun _ _ => id⟩

/-- `free_exited_clients`: all that were on `dead_list` are freed, and nothing else. -/
theorem Inv.freeExiteds (l : List Nat) : ∀ {w : World}, Inv none w → w.deadList = l →
    ∃ w', l.foldlM Exit.freeExited w = some w' ∧ Inv none w' ∧ w'.deadList = [] ∧
      ∀ z, w'.client z = if z ∈ l then none else w.client z := by
  induction l with
  | nil => exact fun {w} h hl => ⟨w, rfl, h, hl, by simp⟩
  | cons x l ih =>
    intro w h hl
    obtain ⟨w₁, hw₁, hinv, hdead, hclient⟩ := h.freeExited (x := x) (by simp [hl])
    obtain ⟨w', hw', hinv', hnone, hleft⟩ := ih hinv (by simp [hdead, hl])
    refine ⟨w', by rw [List.foldlM_cons, hw₁]; exact hw', hinv', hnone, fun z => ?_⟩
    rw [hleft, hclient]
    by_cases hzx : z = x
    · simp [hzx]
    · simp [hzx]

end Bluebox.Exit
