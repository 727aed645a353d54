/-
  Bluebox.Exit.Safe

  What holds of the clients at any time: the tree of servers that is built of `servptr`,
  `users` and `servers`, the links that clients are behind, and the lists.

  A step changes one client, and of the others no more than what is below them (`Keeps`);
  `Keeps.inv` leaves to be shown what holds of that one.  A client that is on `dead_list`
  is in none of these.  `Inv.drop` says that one without anything behind it can leave,
  and every exit goes through it.
-/
import Bluebox.Exit.Basic
import Mathlib.Data.List.Nodup

namespace Bluebox.Exit

open Bluebox.Lib

variable {w w' : World} {x y z p : Nat} {c d : Client} {half half' : Option Nat} {f : Nat → Client → Client}

-- ============================================================================
-- The invariant
-- ============================================================================

/-- A client that has not exited. -/
def Linked (w : World) (x : Nat) (c : Client) : Prop := w.client x = some c ∧ x ∉ w.deadList

/-- `x`, with the fields `c`, is where its server says: among its users or among its servers. -/
def Client.Below (c : Client) (x : Nat) (d : Client) : Prop :=
  (c.status = .client → x ∈ d.users) ∧ (c.status = .server → x ∈ d.servers)

/-- The members of a list are distinct clients that have not exited. -/
def Holds (w : World) (l : List Nat) (P : Client → Prop) : Prop :=
  l.Nodup ∧ ∀ x ∈ l, ∃ c, Linked w x c ∧ P c

/-- The flags and the pointers of a client that has not exited.  Nothing is asked of the link of the
    client `half`, if it is a user. -/
structure Placed (half : Option Nat) (w : World) (x : Nat) (c : Client) : Prop where
  remote : half ≠ some x → c.myConnect = false → x ≠ me → c.dead = false ∧ c.closing = false
  local_link : c.myConnect = true → c.link = some x ∧ x ≠ me ∧ (c.status ≠ .unknown → c.servptr = some me)
  remote_link : c.myConnect = false → x ≠ me → half = some x ∧ (c.link = none ∨ c.status = .client) ∨
    c.status ≠ .unknown ∧ ∃ l d, c.link = some l ∧ Linked w l d ∧ d.status = .server ∧ (d.myConnect = true ∨ half = some l) ∧
      ∃ p e, c.servptr = some p ∧ Linked w p e ∧ (p = l ∨ p ≠ me ∧ e.link = some l)
  up : x ≠ me → c.status ≠ .unknown → ∃ p d, c.servptr = some p ∧ p < x ∧ Linked w p d ∧
    (d.status = .me ∨ d.status = .server) ∧ (half = some x ∧ p = me ∨ c.Below x d)

/-- Those who are below `p` point to it. -/
structure Tree (w : World) (p : Nat) (d : Client) : Prop where
  nodup : d.users.Nodup ∧ d.servers.Nodup
  users : ∀ x ∈ d.users, ∃ c, Linked w x c ∧ c.status = .client ∧ c.servptr = some p
  servers : ∀ x ∈ d.servers, ∃ c, Linked w x c ∧ c.status = .server ∧ c.servptr = some p

/-- What holds of one client. -/
structure Sound (half : Option Nat) (w : World) (x : Nat) : Prop where
  only_me : ∀ c, w.client x = some c → c.status = .me → x = me
  alloc_lt : ∀ c, w.client x = some c → x < w.next
  dead : x ∈ w.deadList → (w.client x).isSome
  half_closing : half = some x → ∃ c, Linked w x c ∧ c.closing = true ∧ x ≠ me
  abort : x ∈ w.abortList ↔ half ≠ some x ∧ ∃ c, Linked w x c ∧ c.myConnect = true ∧ c.closing = true
  placed : ∀ c, Linked w x c → Placed half w x c
  tree : ∀ d, w.client x = some d → Tree w x d

/-- The four lists. -/
structure Lists (w : World) : Prop where
  unknown : Holds w w.unknownList fun c => c.status = .unknown
  lclient : Holds w w.lclientList fun c => c.status = .client ∧ c.servptr = some me ∧ c.myConnect = true
  serv : Holds w w.servList fun c => c.status = .server ∧ c.servptr = some me ∧ c.link ≠ none
  globalServ : Holds w w.globalServList fun c => (c.status = .me ∨ c.status = .server) ∧ c.link ≠ none

/-- All pointers are to clients that are there, and the tree, the lists and the flags agree.  The
    client `half` is about to exit: its connection and its place may be gone already. -/
structure Inv (half : Option Nat) (w : World) : Prop where
  me_linked : ∃ c, Linked w me c ∧ c.status = .me ∧ c.link = some me
  sound : ∀ x, Sound half w x
  nodup : w.deadList.Nodup ∧ w.abortList.Nodup
  lists : Lists w

theorem inv_start : Inv none World.start := by
  have hclient : ∀ x c, World.start.client x = some c → x = me ∧ c = ⟨.me, false, some me, some me, [], [], false, false, false⟩ := by
    intro x c h
    simp only [World.start] at h
    split at h
    · exact ⟨‹_›, (Option.some.inj h).symm⟩
    · simp at h
  have hme : Linked World.start me ⟨.me, false, some me, some me, [], [], false, false, false⟩ := ⟨rfl, by simp [World.start]⟩
  constructor
  case me_linked => exact ⟨_, hme, rfl, rfl⟩
  case sound =>
    intro x
    constructor
    case only_me => exact fun c h _ => (hclient x c h).1
    case alloc_lt => exact fun c h => by rw [(hclient x c h).1]; decide
    case dead => simp [World.start]
    case half_closing => simp
    case abort =>
      simp only [World.start, List.not_mem_nil, false_iff, not_and, not_exists]
      rintro - c ⟨h, -⟩ hlocal
      simp [(hclient x c h).2] at hlocal
    case placed =>
      intro c h
      obtain ⟨rfl, rfl⟩ := hclient x c h.1
      exact ⟨fun _ _ hne => absurd rfl hne, by simp, fun _ hne => absurd rfl hne, fun hne => absurd rfl hne⟩
    case tree =>
      intro d h
      obtain ⟨rfl, rfl⟩ := hclient x d h
      exact ⟨by simp, by simp, by simp⟩
  case nodup => simp [World.start]
  case lists =>
    refine ⟨⟨List.nodup_nil, by simp [World.start]⟩, ⟨List.nodup_nil, by simp [World.start]⟩,
      ⟨List.nodup_nil, by simp [World.start]⟩, by simp [World.start], fun x hx => ?_⟩
    simp only [World.start, List.mem_singleton] at hx
    exact hx ▸ ⟨_, hme, .inl rfl, by simp⟩

-- ============================================================================
-- Nothing is behind a leaf
-- ============================================================================

theorem Linked.unique {c' : Client} (h : Linked w x c) (h' : Linked w x c') : c = c' := by
  have := h.1.symm.trans h'.1
  simpa using this

theorem Inv.only_me (h : Inv half w) (hx : w.client x = some c) (hstatus : c.status = .me) : x = me :=
  (h.sound x).only_me c hx hstatus

theorem Inv.alloc_lt (h : Inv half w) (hx : w.client x = some c) : x < w.next := (h.sound x).alloc_lt c hx

theorem Inv.placed (h : Inv half w) (hx : Linked w x c) : Placed half w x c := (h.sound x).placed c hx

theorem Inv.tree (h : Inv half w) (hx : w.client x = some c) : Tree w x c := (h.sound x).tree c hx

theorem Inv.status_me (h : Inv half w) (hx : Linked w me c) : c.status = .me := by
  obtain ⟨d, hd, hstatus, -⟩ := h.me_linked
  rwa [hx.unique hd]

/-- Servers have registered. -/
theorem not_unknown (h : c.status = .me ∨ c.status = .server) : c.status ≠ .unknown := by
  rcases h with h | h <;> simp [h]

/-- A client behind a link is its user or its server, or behind one of its servers. -/
theorem Inv.child_of_link (h : Inv half w) {l : Nat} (hl : Linked w l d) : ∀ x c, Linked w x c → x ≠ l → x ≠ me →
    (half = some x → c.status ≠ .client) → c.link = some l → d.users ≠ [] ∨ d.servers ≠ [] := by
  intro x
  induction x using Nat.strongRecOn with
  | _ x ih =>
    intro c hx hne hme huser hlink
    have hremote : c.myConnect = false := by
      by_contra hlocal
      have := ((h.placed hx).local_link (by simpa using hlocal)).1
      grind
    rcases (h.placed hx).remote_link hremote hme with ⟨hhalf, hnone⟩ | ⟨hstatus, l', d', hlink', hl', hserver, -, p, e, hp, he, hpl⟩
    · have := huser hhalf
      simp_all
    · obtain rfl : l' = l := by grind
      obtain ⟨p', e', hp', hlt, he', hkind, hbelow⟩ := (h.placed hx).up hme hstatus
      obtain rfl : p' = p := by grind
      by_cases hpl' : p' = l'
      · subst hpl'
        obtain rfl := hl.unique he'
        rcases hbelow with ⟨-, rfl⟩ | hbelow
        · have := h.status_me hl
          grind [Linked.unique]
        · have := h.only_me hx.1
          have hc : c.status = .client ∨ c.status = .server := by cases hs : c.status <;> simp_all
          rcases hc with hc | hc
          · exact .inl (List.ne_nil_of_mem (hbelow.1 hc))
          · exact .inr (List.ne_nil_of_mem (hbelow.2 hc))
      · rcases hpl with hpl | ⟨hpme, hplink⟩
        · exact absurd hpl hpl'
        · exact ih p' hlt e he hpl' hpme (fun _ => by grind [Linked.unique]) hplink

-- ============================================================================
-- One client is changed
-- ============================================================================

/-- Where `e` was, `e'` is to those who point to it. -/
structure StandsFor (half half' : Option Nat) (p : Nat) (e e' : Client) : Prop where
  status : e'.status = e.status
  myConnect : e.myConnect = true ∨ half = some p → e'.myConnect = true ∨ half' = some p
  link : ∀ l, e.link = some l → p = l ∨ e'.link = some l

/-- From `w` to `w'` only `x` is another; who else was there still is, with its flags and its pointers,
    and with all but `x` that was below it. -/
structure Keeps (half half' : Option Nat) (w w' : World) (x : Nat) (f : Nat → Client → Client) : Prop where
  ne_me : x ≠ me
  other : ∀ z, z ≠ x → w'.client z = (w.client z).map (f z)
  dead : ∀ z, z ≠ x → (z ∈ w'.deadList ↔ z ∈ w.deadList)
  abort : ∀ z, z ≠ x → (z ∈ w'.abortList ↔ z ∈ w.abortList)
  exiting : ∀ z, z ≠ x → (half' = some z ↔ half = some z)
  next : w.next ≤ w'.next
  same : ∀ z d, f z d = { d with users := (f z d).users, servers := (f z d).servers }
  below : ∀ z d y, y ≠ x → (y ∈ (f z d).users ↔ y ∈ d.users) ∧ (y ∈ (f z d).servers ↔ y ∈ d.servers)
  nodup : ∀ z d, w.client z = some d → (f z d).users.Nodup ∧ (f z d).servers.Nodup
  points : ∀ z d e, Linked w z d → z ≠ x → z ≠ me → d.status ≠ .unknown →
    (¬(half = some z ∧ d.status = .client) ∧ d.link = some x ∨ d.servptr = some x) → Linked w x e → e.status = .server →
      ∃ e', Linked w' x e' ∧ StandsFor half half' x e e' ∧ (z ∈ e.users → z ∈ e'.users) ∧ (z ∈ e.servers → z ∈ e'.servers)

theorem Keeps.to (k : Keeps half half' w w' x f) (hd : Linked w z d) (hz : z ≠ x) : Linked w' z (f z d) :=
  ⟨by rw [k.other z hz, hd.1]; rfl, by rw [k.dead z hz]; exact hd.2⟩

theorem Keeps.from_client (k : Keeps half half' w w' x f) (hd : w'.client z = some d) (hz : z ≠ x) :
    ∃ e, w.client z = some e ∧ f z e = d := by
  rw [k.other z hz] at hd
  simpa using hd

theorem Keeps.from (k : Keeps half half' w w' x f) (hd : Linked w' z d) (hz : z ≠ x) : ∃ e, Linked w z e ∧ f z e = d := by
  obtain ⟨e, he, rfl⟩ := k.from_client hd.1 hz
  exact ⟨e, ⟨he, by rw [← k.dead z hz]; exact hd.2⟩, rfl⟩

theorem Keeps.same_fields (k : Keeps half half' w w' x f) (z : Nat) (d : Client) : (f z d).status = d.status ∧
    (f z d).myConnect = d.myConnect ∧ (f z d).link = d.link ∧ (f z d).servptr = d.servptr ∧ (f z d).closing = d.closing ∧
    (f z d).dead = d.dead := by
  rw [k.same z d]
  exact ⟨rfl, rfl, rfl, rfl, rfl, rfl⟩

/-- Those that a client points to are still there. -/
theorem Keeps.pointed (k : Keeps half half' w w' x f) (hz : Linked w z d) (hzx : z ≠ x) (hme : z ≠ me) (hstatus : d.status ≠ .unknown)
    (hp : ¬(half = some z ∧ d.status = .client) ∧ d.link = some p ∨ d.servptr = some p) {e : Client} (he : Linked w p e)
    (hkind : e.status = .me ∨ e.status = .server) (hmeonly : e.status = .me → p = me) :
    ∃ e', Linked w' p e' ∧ StandsFor half half' p e e' ∧ (z ∈ e.users → z ∈ e'.users) ∧ (z ∈ e.servers → z ∈ e'.servers) := by
  by_cases hpx : p = x
  · subst hpx
    exact k.points z d e hz hzx hme hstatus hp he (hkind.resolve_left fun hst => k.ne_me (hmeonly hst))
  · obtain ⟨hst, hmy, hlink, -⟩ := k.same_fields p e
    exact ⟨f p e, k.to he hpx, ⟨hst, fun hm => hm.imp (fun hm => hmy.trans hm) (k.exiting p hpx).mpr, fun l hl => .inr (hlink.trans hl)⟩,
      ((k.below p e z hzx).1).mpr, ((k.below p e z hzx).2).mpr⟩

theorem Keeps.remote_link (k : Keeps half half' w w' x f) (h : Inv half w) (hz : Linked w z d) (hzx : z ≠ x)
    (hremote : d.myConnect = false) (hme : z ≠ me) : half' = some z ∧ (d.link = none ∨ d.status = .client) ∨
      d.status ≠ .unknown ∧ ∃ l e, d.link = some l ∧ Linked w' l e ∧ e.status = .server ∧ (e.myConnect = true ∨ half' = some l) ∧
        ∃ p e, d.servptr = some p ∧ Linked w' p e ∧ (p = l ∨ p ≠ me ∧ e.link = some l) := by
  by_cases huser : half = some z ∧ d.status = .client
  · exact .inl ⟨(k.exiting z hzx).mpr huser.1, .inr huser.2⟩
  rcases (h.placed hz).remote_link hremote hme with ⟨hhalf, hnone⟩ | ⟨hstatus, l, e, hl, he, hserver, hmy, p, g, hp, hg, hpl⟩
  · exact .inl ⟨(k.exiting z hzx).mpr hhalf, hnone⟩
  · obtain ⟨p', g', hp', -, hg', hkind, -⟩ := (h.placed hz).up hme hstatus
    obtain rfl : p' = p := by simpa [hp'] using hp
    obtain rfl := hg.unique hg'
    obtain ⟨e', he', hs, -⟩ := k.pointed hz hzx hme hstatus (.inl ⟨huser, hl⟩) he (.inr hserver) (by simp [hserver])
    obtain ⟨g', hg', hs', -⟩ := k.pointed hz hzx hme hstatus (.inr hp) hg hkind (h.only_me hg.1)
    refine .inr ⟨hstatus, l, e', hl, he', hs.status.trans hserver, hs.myConnect hmy, p', g', hp, hg', ?_⟩
    rcases hpl with hpl | ⟨hpme, hglink⟩
    · exact .inl hpl
    · exact (hs'.link l hglink).imp_right fun hlink => ⟨hpme, hlink⟩

theorem Keeps.up (k : Keeps half half' w w' x f) (h : Inv half w) (hz : Linked w z d) (hzx : z ≠ x) (hme : z ≠ me)
    (hstatus : d.status ≠ .unknown) : ∃ p e, d.servptr = some p ∧ p < z ∧ Linked w' p e ∧ (e.status = .me ∨ e.status = .server) ∧
      (half' = some z ∧ p = me ∨ d.Below z e) := by
  obtain ⟨p, e, hp, hlt, he, hkind, hbelow⟩ := (h.placed hz).up hme hstatus
  obtain ⟨e', he', hs, hu, hv⟩ := k.pointed hz hzx hme hstatus (.inr hp) he hkind (h.only_me he.1)
  refine ⟨p, e', hp, hlt, he', by rwa [hs.status], ?_⟩
  exact hbelow.imp (fun hb => ⟨(k.exiting z hzx).mpr hb.1, hb.2⟩) fun hb => ⟨fun hst => hu (hb.1 hst), fun hst => hv (hb.2 hst)⟩

theorem Keeps.placed (k : Keeps half half' w w' x f) (h : Inv half w) (hz : Linked w z d) (hzx : z ≠ x) : Placed half' w' z (f z d) := by
  obtain ⟨hst, hmy, hlink, hserv, hclosing, hdead⟩ := k.same_fields z d
  constructor
  case remote =>
    rw [hmy, hdead, hclosing]
    exact fun hne => (h.placed hz).remote fun hhalf => hne ((k.exiting z hzx).mpr hhalf)
  case local_link =>
    rw [hmy, hlink, hst, hserv]
    exact (h.placed hz).local_link
  case remote_link =>
    rw [hmy, hlink, hst, hserv]
    exact k.remote_link h hz hzx
  case up =>
    simpa only [Client.Below, hst, hserv] using k.up h hz hzx

theorem Keeps.tree (k : Keeps half half' w w' x f) (h : Inv half w) (hd : w.client z = some d)
    (husers : x ∈ (f z d).users → ∃ c, Linked w' x c ∧ c.status = .client ∧ c.servptr = some z)
    (hservers : x ∈ (f z d).servers → ∃ c, Linked w' x c ∧ c.status = .server ∧ c.servptr = some z) : Tree w' z (f z d) := by
  have hmove : ∀ y e, y ≠ x → Linked w y e → ∃ e', Linked w' y e' ∧ e'.status = e.status ∧ e'.servptr = e.servptr := by
    intro y e hyx he
    obtain ⟨hst, -, -, hserv, -⟩ := k.same_fields y e
    exact ⟨f y e, k.to he hyx, hst, hserv⟩
  refine ⟨k.nodup z d hd, fun y hy => ?_, fun y hy => ?_⟩
  · by_cases hyx : y = x
    · exact hyx ▸ husers (hyx ▸ hy)
    · obtain ⟨e, he, hst, hp⟩ := (h.tree hd).users y (((k.below z d y hyx).1).mp hy)
      obtain ⟨e', he', hst', hp'⟩ := hmove y e hyx he
      exact ⟨e', he', hst'.trans hst, hp'.trans hp⟩
  · by_cases hyx : y = x
    · exact hyx ▸ hservers (hyx ▸ hy)
    · obtain ⟨e, he, hst, hp⟩ := (h.tree hd).servers y (((k.below z d y hyx).2).mp hy)
      obtain ⟨e', he', hst', hp'⟩ := hmove y e hyx he
      exact ⟨e', he', hst'.trans hst, hp'.trans hp⟩

/-- What held of another client still does. -/
theorem Keeps.sound (k : Keeps half half' w w' x f) (h : Inv half w) (hzx : z ≠ x)
    (hbelow : ∀ d, w.client z = some d →
      (x ∈ (f z d).users → ∃ c, Linked w' x c ∧ c.status = .client ∧ c.servptr = some z) ∧
      (x ∈ (f z d).servers → ∃ c, Linked w' x c ∧ c.status = .server ∧ c.servptr = some z)) : Sound half' w' z := by
  constructor
  case only_me =>
    intro d' hd' hstatus
    obtain ⟨d, hd, rfl⟩ := k.from_client hd' hzx
    exact h.only_me hd ((k.same_fields z d).1 ▸ hstatus)
  case alloc_lt =>
    intro d' hd'
    obtain ⟨d, hd, -⟩ := k.from_client hd' hzx
    exact Nat.lt_of_lt_of_le (h.alloc_lt hd) k.next
  case dead =>
    rw [k.dead z hzx, k.other z hzx, Option.isSome_map]
    exact (h.sound z).dead
  case half_closing =>
    intro hhalf
    obtain ⟨d, hd, hclosing, hme⟩ := (h.sound z).half_closing ((k.exiting z hzx).mp hhalf)
    exact ⟨f z d, k.to hd hzx, (k.same_fields z d).2.2.2.2.1.trans hclosing, hme⟩
  case abort =>
    rw [k.abort z hzx, (h.sound z).abort, Ne, Ne, k.exiting z hzx]
    refine and_congr_right fun _ => ⟨fun ⟨d, hd, hmy, hclosing⟩ => ?_, fun ⟨d', hd', hmy, hclosing⟩ => ?_⟩
    · have hsame := k.same_fields z d
      exact ⟨f z d, k.to hd hzx, hsame.2.1.trans hmy, hsame.2.2.2.2.1.trans hclosing⟩
    · obtain ⟨d, hd, rfl⟩ := k.from hd' hzx
      have hsame := k.same_fields z d
      exact ⟨d, hd, hsame.2.1 ▸ hmy, hsame.2.2.2.2.1 ▸ hclosing⟩
  case placed =>
    intro d' hd'
    obtain ⟨d, hd, rfl⟩ := k.from hd' hzx
    exact k.placed h hd hzx
  case tree =>
    intro d' hd'
    obtain ⟨d, hd, rfl⟩ := k.from_client hd' hzx
    exact k.tree h hd (hbelow d hd).1 (hbelow d hd).2

/-- The invariant, once it holds of the client that is changed and of the lists. -/
theorem Keeps.inv (k : Keeps half half' w w' x f) (h : Inv half w)
    (hbelow : ∀ z d, z ≠ x → w.client z = some d →
      (x ∈ (f z d).users → ∃ c, Linked w' x c ∧ c.status = .client ∧ c.servptr = some z) ∧
      (x ∈ (f z d).servers → ∃ c, Linked w' x c ∧ c.status = .server ∧ c.servptr = some z))
    (hself : Sound half' w' x) (hnodup : w'.deadList.Nodup ∧ w'.abortList.Nodup) (hlists : Lists w') : Inv half' w' where
  me_linked := by
    obtain ⟨m, hm, hst, hlink⟩ := h.me_linked
    have hsame := k.same_fields me m
    exact ⟨f me m, k.to hm (Ne.symm k.ne_me), hsame.1.trans hst, hsame.2.2.1.trans hlink⟩
  sound z := by
    by_cases hzx : z = x
    · exact hzx ▸ hself
    · exact k.sound h hzx (hbelow z · hzx)
  nodup := hnodup
  lists := hlists

/-- A list that `x` is not on. -/
theorem Keeps.holds (k : Keeps half half' w w' x f) {l : List Nat} {P : Client → Prop} (hl : Holds w l P) (hx : x ∉ l)
    (hP : ∀ z d, P d → P (f z d)) : Holds w' l P := by
  refine ⟨hl.1, fun z hz => ?_⟩
  obtain ⟨d, hd, hp⟩ := hl.2 z hz
  exact ⟨_, k.to hd (by rintro rfl; exact hx hz), hP z d hp⟩

/-- A list that `x` is taken from. -/
theorem Keeps.holds_erase (k : Keeps half half' w w' x f) {l : List Nat} {P : Client → Prop} (hl : Holds w l P)
    (hP : ∀ z d, P d → P (f z d)) : Holds w' (l.erase x) P :=
  k.holds ⟨hl.1.erase x, fun z hz => hl.2 z (List.mem_of_mem_erase hz)⟩ hl.1.not_mem_erase hP

/-- The lists ask for fields that are kept. -/
theorem Keeps.listed (k : Keeps half half' w w' x f) (z : Nat) (d : Client) :
    (d.status = .unknown → (f z d).status = .unknown) ∧
    (d.status = .client ∧ d.servptr = some me ∧ d.myConnect = true →
      (f z d).status = .client ∧ (f z d).servptr = some me ∧ (f z d).myConnect = true) ∧
    (d.status = .server ∧ d.servptr = some me ∧ d.link ≠ none →
      (f z d).status = .server ∧ (f z d).servptr = some me ∧ (f z d).link ≠ none) ∧
    ((d.status = .me ∨ d.status = .server) ∧ d.link ≠ none →
      ((f z d).status = .me ∨ (f z d).status = .server) ∧ (f z d).link ≠ none) := by
  obtain ⟨hst, hmy, hlink, hserv, -⟩ := k.same_fields z d
  rw [hst, hmy, hlink, hserv]
  exact ⟨id, id, id, id⟩

-- ============================================================================
-- A leaf is dropped
-- ============================================================================

/-- `y` has exited: it is on `dead_list`, and nowhere else. -/
structure Drops (w w' : World) (y : Nat) : Prop where
  self : ∃ c c', w.client y = some c ∧ w'.client y = some c' ∧ c'.status = c.status ∧ c'.users = c.users ∧
    c'.servers = c.servers
  other : ∀ z, z ≠ y → w'.client z =
    (w.client z).map fun d => { d with users := d.users.erase y, servers := d.servers.erase y }
  dead : w'.deadList = y :: w.deadList
  abort : w'.abortList = w.abortList
  unknown : w'.unknownList = w.unknownList.erase y
  lclient : w'.lclientList = w.lclientList.erase y
  serv : w'.servList = w.servList.erase y
  globalServ : w'.globalServList = w.globalServList.erase y
  next : w'.next = w.next

/-- A client that is left, without the one that is gone. -/
def Client.without (c : Client) (y : Nat) : Client := { c with users := c.users.erase y, servers := c.servers.erase y }

theorem Client.without_nodup (h : Tree w z d) (y : Nat) : (d.without y).users.Nodup ∧ (d.without y).servers.Nodup :=
  ⟨h.nodup.1.erase y, h.nodup.2.erase y⟩

theorem Client.mem_without (d : Client) (h : z ≠ y) :
    (z ∈ (d.without y).users ↔ z ∈ d.users) ∧ (z ∈ (d.without y).servers ↔ z ∈ d.servers) :=
  ⟨List.mem_erase_of_ne h, List.mem_erase_of_ne h⟩

theorem Client.not_mem_without (h : Tree w z d) (y : Nat) : y ∉ (d.without y).users ∧ y ∉ (d.without y).servers :=
  ⟨h.nodup.1.not_mem_erase, h.nodup.2.not_mem_erase⟩

theorem Drops.linked (h : Drops w w' y) (hx : Linked w x c) (hne : x ≠ y) : Linked w' x (c.without y) := by
  refine ⟨?_, by rw [h.dead]; simp [hne, hx.2]⟩
  rw [h.other x hne, hx.1]
  rfl

theorem Drops.not_linked (h : Drops w w' y) : ¬Linked w' y c := fun hy => hy.2 (by rw [h.dead]; exact .head _)

/-- No server points to a leaf. -/
theorem Inv.not_parent (h : Inv half w) (hy : Linked w y c) (hme : y ≠ me) (husers : c.users = []) (hservers : c.servers = [])
    (hx : Linked w x d) (hxme : x ≠ me) (hstatus : d.status ≠ .unknown) : d.servptr ≠ some y := by
  intro hp
  obtain ⟨p, e, hp', -, he, -, hbelow⟩ := (h.placed hx).up hxme hstatus
  obtain rfl : p = y := by grind
  obtain rfl := he.unique hy
  have := h.only_me hx.1
  rcases hbelow with ⟨-, hpme⟩ | hbelow
  · exact hme hpme
  · cases hs : d.status <;> simp_all [Client.Below]

/-- All others stay when one leaves that nothing is behind. -/
theorem Drops.keeps (hd : Drops w w' y) (h : Inv half w) (hy : Linked w y c) (hme : y ≠ me) (husers : c.users = [])
    (hservers : c.servers = []) : Keeps half (if half = some y then none else half) w w' y fun _ d => d.without y where
  ne_me := hme
  other := hd.other
  dead z hz := by simp [hd.dead, hz]
  abort z _ := by rw [hd.abort]
  exiting z hz := by split <;> grind
  next := Nat.le_of_eq hd.next.symm
  same _ _ := rfl
  below z d x hx := d.mem_without hx
  nodup z d hz := Client.without_nodup (h.tree hz) y
  points z d e hz hzy hzme hstatus hp he _ := by
    exfalso
    rcases hp with ⟨huser, hlink⟩ | hp
    · have := h.child_of_link hy z d hz hzy hzme (fun hhalf hst => huser ⟨hhalf, hst⟩) hlink
      simp [husers, hservers] at this
    · exact h.not_parent hy hme husers hservers hz hzme hstatus hp

/-- One without anything behind it leaves. -/
theorem Inv.drop (h : Inv half w) (hy : Linked w y c) (hme : y ≠ me) (husers : c.users = []) (hservers : c.servers = [])
    (habort : y ∉ w.abortList) (hd : Drops w w' y) : Inv (if half = some y then none else half) w' := by
  have k := hd.keeps h hy hme husers hservers
  obtain ⟨c₀, c', hc₀, hc', hst, hu, hs⟩ := hd.self
  obtain rfl : c = c₀ := by simpa [hy.1] using hc₀
  refine k.inv h (fun z d _ hz => ?_) ?_ ?_ ?_
  · have hnot := Client.not_mem_without (h.tree hz) y
    exact ⟨fun hmem => absurd hmem hnot.1, fun hmem => absurd hmem hnot.2⟩
  · constructor
    case only_me => exact fun e he hme => h.only_me hy.1 (by grind)
    case alloc_lt => exact fun _ _ => hd.next ▸ h.alloc_lt hy.1
    case dead => simp [hc']
    case half_closing => split <;> grind
    case abort =>
      rw [hd.abort]
      exact ⟨fun hmem => absurd hmem habort, fun ⟨_, e, he, _⟩ => absurd he hd.not_linked⟩
    case placed => exact fun e he => absurd he hd.not_linked
    case tree =>
      intro e he
      obtain rfl : c' = e := by simpa [hc'] using he
      exact ⟨by simp [hu, hs, husers, hservers], by simp [hu, husers], by simp [hs, hservers]⟩
  · rw [hd.dead, hd.abort]
    exact ⟨List.nodup_cons.mpr ⟨hy.2, h.nodup.1⟩, h.nodup.2⟩
  · constructor
    case unknown => rw [hd.unknown]; exact k.holds_erase h.lists.unknown fun z d => (k.listed z d).1
    case lclient => rw [hd.lclient]; exact k.holds_erase h.lists.lclient fun z d => (k.listed z d).2.1
    case serv => rw [hd.serv]; exact k.holds_erase h.lists.serv fun z d => (k.listed z d).2.2.1
    case globalServ => rw [hd.globalServ]; exact k.holds_erase h.lists.globalServ fun z d => (k.listed z d).2.2.2

end Bluebox.Exit
