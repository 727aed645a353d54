/-
  Bluebox.Exit.Runs

  New clients, and what holds in every run.

  One that comes points to those who are there (`Fits`), and its server to it (`Joins`);
  `Inv.join` is for all that come, a user that is to exit as its server is behind another
  link among them.
-/
import Bluebox.Exit.Leave

namespace Bluebox.Exit

open Bluebox.Lib

variable {w w' : World} {x y z p : Nat} {c d : Client} {half : Option Nat}

-- ============================================================================
-- New clients
-- ============================================================================

/-- The server at `z`, once `x` has come with the fields `c`. -/
def Client.adopt (d : Client) (z x : Nat) (c : Client) : Client := { d with
  users := if c.status = .client ∧ c.servptr = some z then x :: d.users else d.users
  servers := if c.status = .server ∧ c.servptr = some z then x :: d.servers else d.servers }

theorem Client.adopt_eq {d : Client} (h : c.servptr ≠ some z) : d.adopt z x c = d := by simp [Client.adopt, h]

/-- `x` comes, with the fields `c`. -/
structure Joins (w w' : World) (x : Nat) (c : Client) : Prop where
  self : w'.client x = some c
  other : ∀ z, z ≠ x → w'.client z = (w.client z).map fun d => d.adopt z x c
  dead : w'.deadList = w.deadList
  abort : w'.abortList = w.abortList
  next : w.next ≤ w'.next ∧ x < w'.next
  unknown : w'.unknownList = if c.status = .unknown then x :: w.unknownList else w.unknownList.erase x
  lclient : w'.lclientList = if c.status = .client ∧ c.myConnect = true then x :: w.lclientList else w.lclientList
  serv : w'.servList = if c.status = .server ∧ c.myConnect = true then x :: w.servList else w.servList
  globalServ : w'.globalServList = if c.status = .server then w.globalServList ++ [x] else w.globalServList

/-- What one that comes is to point to; if it was there, it had not registered.  One that is about to
    exit may be a user behind another link than its server. -/
structure Fits (half : Option Nat) (w : World) (x : Nat) (c : Client) : Prop where
  exiting : half = none ∨ half = some x
  fresh : ∀ d, w.client x = some d → x ∉ w.deadList ∧ d.status = .unknown ∧ d.closing = false ∧ c.status ≠ .unknown
  ne_me : x ≠ me
  status : c.status ≠ .me
  empty : c.users = [] ∧ c.servers = []
  flags : (half ≠ some x → c.dead = false ∧ c.closing = false) ∧ (half = some x → c.closing = true)
  local_link : c.myConnect = true → c.link = some x ∧ (c.status ≠ .unknown → c.servptr = some me)
  remote_link : c.myConnect = false → half = some x ∧ c.status = .client ∨ c.status ≠ .unknown ∧ ∃ l d, c.link = some l ∧
    Linked w l d ∧ d.status = .server ∧ d.myConnect = true ∧
      ∃ p e, c.servptr = some p ∧ Linked w p e ∧ (p = l ∨ p ≠ me ∧ e.link = some l)
  up : c.status ≠ .unknown → ∃ p d, c.servptr = some p ∧ p < x ∧ Linked w p d ∧ (d.status = .me ∨ d.status = .server)

theorem Fits.not_linked (hf : Fits half w x c) (hx : Linked w x d) :
    d.status = .unknown ∧ d.closing = false ∧ c.status ≠ .unknown := (hf.fresh d hx.1).2

theorem Fits.not_dead (hf : Fits half w x c) (h : Inv none w) : x ∉ w.deadList := by
  intro hmem
  obtain ⟨d, hd⟩ := Option.isSome_iff_exists.mp ((h.sound x).dead hmem)
  exact (hf.fresh d hd).1 hmem

/-- It was below no server. -/
theorem Fits.not_below (hf : Fits half w x c) (h : Inv none w) (hd : w.client z = some d) : x ∉ d.users ∧ x ∉ d.servers := by
  constructor
  · intro hmem
    obtain ⟨e, he, hst, -⟩ := (h.tree hd).users x hmem
    simp [(hf.not_linked he).1] at hst
  · intro hmem
    obtain ⟨e, he, hst, -⟩ := (h.tree hd).servers x hmem
    simp [(hf.not_linked he).1] at hst

/-- It was on none of the lists of those who have registered. -/
theorem Fits.not_mem (hf : Fits half w x c) {l : List Nat} {P : Client → Prop} (hl : Holds w l P)
    (hP : ∀ d, P d → d.status ≠ .unknown) : x ∉ l := by
  intro hmem
  obtain ⟨d, hd, hp⟩ := hl.2 x hmem
  exact hP d hp (hf.not_linked hd).1

theorem Client.mem_adopt (hy : y ≠ x) :
    (y ∈ (d.adopt z x c).users ↔ y ∈ d.users) ∧ (y ∈ (d.adopt z x c).servers ↔ y ∈ d.servers) := by
  simp only [Client.adopt]
  constructor <;> split <;> simp [hy]

theorem Client.nodup_adopt (hd : d.users.Nodup ∧ d.servers.Nodup) (hx : x ∉ d.users ∧ x ∉ d.servers) :
    (d.adopt z x c).users.Nodup ∧ (d.adopt z x c).servers.Nodup := by
  simp only [Client.adopt]
  constructor <;> split <;> simp [hd, hx]

/-- Its server has it where it is looked for, and no other has. -/
theorem Client.self_mem_adopt (hx : x ∉ d.users ∧ x ∉ d.servers) :
    (x ∈ (d.adopt z x c).users ↔ c.status = .client ∧ c.servptr = some z) ∧
      (x ∈ (d.adopt z x c).servers ↔ c.status = .server ∧ c.servptr = some z) := by
  simp only [Client.adopt]
  constructor <;> split <;> simp_all

theorem Joins.keeps (hj : Joins w w' x c) (h : Inv none w) (hf : Fits half w x c) :
    Keeps none half w w' x fun z d => d.adopt z x c where
  ne_me := hf.ne_me
  other := hj.other
  dead z _ := by rw [hj.dead]
  abort z _ := by rw [hj.abort]
  exiting z hz := by rcases hf.exiting with rfl | rfl <;> simp [Ne.symm hz]
  next := hj.next.1
  same _ _ := rfl
  below _ _ _ hy := Client.mem_adopt hy
  nodup z d hd := Client.nodup_adopt (h.tree hd).nodup (hf.not_below h hd)
  points z d e _ _ _ _ _ he hserver := by simp [(hf.not_linked he).1] at hserver

/-- One that comes finds its link and its server. -/
theorem Joins.placed (hj : Joins w w' x c) (h : Inv none w) (hf : Fits half w x c) : Placed half w' x c := by
  have k := hj.keeps h hf
  have hne : ∀ z d, Linked w z d → d.status = .me ∨ d.status = .server → z ≠ x := by
    rintro z d hz hkind rfl
    exact not_unknown hkind (hf.not_linked hz).1
  constructor
  case remote => exact fun hhalf _ _ => hf.flags.1 hhalf
  case local_link => exact fun hlocal => ⟨(hf.local_link hlocal).1, hf.ne_me, (hf.local_link hlocal).2⟩
  case remote_link =>
    intro hremote _
    rcases hf.remote_link hremote with ⟨hhalf, hst⟩ | ⟨hst, l, d, hl, hd, hserver, hmy, p, e, hp, he, hpl⟩
    · exact .inl ⟨hhalf, .inr hst⟩
    · obtain ⟨p', e', hp', -, he', hkind⟩ := hf.up hst
      obtain rfl : p = p' := by simpa [hp] using hp'
      exact .inr ⟨hst, l, _, hl, k.to hd (hne l d hd (.inr hserver)), hserver, .inl hmy, p, _, hp, k.to he (hne p e' he' hkind), hpl⟩
  case up =>
    intro _ hst
    obtain ⟨p, e, hp, hlt, he, hkind⟩ := hf.up hst
    have hmem := Client.self_mem_adopt (c := c) (z := p) (hf.not_below h he.1)
    exact ⟨p, _, hp, hlt, k.to he (hne p e he hkind), hkind, .inr ⟨fun hs => hmem.1.mpr ⟨hs, hp⟩, fun hs => hmem.2.mpr ⟨hs, hp⟩⟩⟩

theorem Joins.sound (hj : Joins w w' x c) (h : Inv none w) (hf : Fits half w x c) : Sound half w' x := by
  have hself : Linked w' x c := ⟨hj.self, by rw [hj.dead]; exact hf.not_dead h⟩
  have hfield : ∀ {d}, w'.client x = some d → c = d := fun hd => Option.some.inj (hj.self.symm.trans hd)
  constructor
  case only_me => exact fun d hd hst => absurd (hfield hd ▸ hst) hf.status
  case alloc_lt => exact fun _ _ => hj.next.2
  case dead => simp [hj.self]
  case half_closing => exact fun hhalf => ⟨c, hself, hf.flags.2 hhalf, hf.ne_me⟩
  case abort =>
    rw [hj.abort, (h.sound x).abort]
    constructor
    · rintro ⟨-, d, hd, -, hclosing⟩
      simp [(hf.not_linked hd).2.1] at hclosing
    · rintro ⟨hhalf, d, hd, -, hclosing⟩
      obtain rfl := hself.unique hd
      simp [(hf.flags.1 hhalf).2] at hclosing
  case placed =>
    intro d hd
    obtain rfl := hself.unique hd
    exact hj.placed h hf
  case tree =>
    intro d hd
    obtain rfl := hfield hd
    exact ⟨by simp [hf.empty], by simp [hf.empty], by simp [hf.empty]⟩

theorem Holds.cons {l : List Nat} {P : Client → Prop} (h : Holds w l P) (hx : Linked w x c) (hnot : x ∉ l) (hp : P c) :
    Holds w (x :: l) P := by
  refine ⟨List.nodup_cons.mpr ⟨hnot, h.1⟩, fun z hz => ?_⟩
  rcases List.mem_cons.mp hz with rfl | hz
  · exact ⟨c, hx, hp⟩
  · exact h.2 z hz

theorem Holds.perm {l l' : List Nat} {P : Client → Prop} (h : Holds w l P) (hl : l'.Perm l) : Holds w l' P :=
  ⟨hl.nodup_iff.mpr h.1, fun z hz => h.2 z (hl.mem_iff.mp hz)⟩

theorem Joins.lists (hj : Joins w w' x c) (h : Inv none w) (hf : Fits half w x c) : Lists w' := by
  have k := hj.keeps h hf
  have hself : Linked w' x c := ⟨hj.self, by rw [hj.dead]; exact hf.not_dead h⟩
  constructor
  case unknown =>
    rw [hj.unknown]
    split
    · have hnot : x ∉ w.unknownList := by
        intro hmem
        obtain ⟨d, hd, -⟩ := h.lists.unknown.2 x hmem
        exact (hf.not_linked hd).2.2 ‹_›
      exact (k.holds h.lists.unknown hnot fun _ _ hp => hp).cons hself hnot ‹_›
    · exact k.holds_erase h.lists.unknown fun _ _ hp => hp
  case lclient =>
    have hnot := hf.not_mem h.lists.lclient fun d hp => by simp [hp.1]
    have hold := k.holds h.lists.lclient hnot fun _ _ hp => hp
    rw [hj.lclient]
    split
    · rename_i hst
      exact hold.cons hself hnot ⟨hst.1, (hf.local_link hst.2).2 (by simp [hst.1]), hst.2⟩
    · exact hold
  case serv =>
    have hnot := hf.not_mem h.lists.serv fun d hp => by simp [hp.1]
    have hold := k.holds h.lists.serv hnot fun _ _ hp => hp
    rw [hj.serv]
    split
    · rename_i hst
      exact hold.cons hself hnot ⟨hst.1, (hf.local_link hst.2).2 (by simp [hst.1]), by simp [(hf.local_link hst.2).1]⟩
    · exact hold
  case globalServ =>
    have hnot := hf.not_mem h.lists.globalServ fun d hp => not_unknown hp.1
    have hold := k.holds h.lists.globalServ hnot fun _ _ hp => hp
    rw [hj.globalServ]
    split
    · rename_i hst
      have hlink : c.link ≠ none := by
        cases hlocal : c.myConnect with
        | true => simp [(hf.local_link hlocal).1]
        | false =>
          rcases hf.remote_link hlocal with ⟨-, huser⟩ | ⟨-, l, -, hl, -⟩
          · simp [hst] at huser
          · simp [hl]
      exact (hold.cons hself hnot ⟨.inr hst, hlink⟩).perm (List.perm_append_singleton x _)
    · exact hold

/-- One that points to those who are there may come. -/
theorem Inv.join (h : Inv none w) (hj : Joins w w' x c) (hf : Fits half w x c) : Inv half w' := by
  refine (hj.keeps h hf).inv h (fun z d _ hd => ?_) (hj.sound h hf) (by rw [hj.dead, hj.abort]; exact h.nodup) (hj.lists h hf)
  have hmem := Client.self_mem_adopt (c := c) (z := z) (hf.not_below h hd)
  have hself : Linked w' x c := ⟨hj.self, by rw [hj.dead]; exact hf.not_dead h⟩
  exact ⟨fun hx => ⟨c, hself, hmem.1.mp hx⟩, fun hx => ⟨c, hself, hmem.2.mp hx⟩⟩

theorem World.registering (h : w.isRegistering x = true) : ∃ d, Linked w x d ∧ x ≠ me ∧ d.myConnect = true ∧
    d.status = .unknown ∧ d.dead = false ∧ d.closing = false := by
  rw [World.isRegistering, Bool.and_eq_true, World.found_iff] at h
  obtain ⟨⟨hme, d, hd⟩, hany⟩ := h
  simp only [hd.1, Option.any_some, Bool.and_eq_true, decide_eq_true_eq, Bool.not_eq_true', Client.isAnyDead, Bool.or_eq_false_iff]
    at hany
  exact ⟨d, hd, hme, hany.1.1, hany.1.2, hany.2.1.2, hany.2.2⟩

theorem World.link (h : w.isLink x = true) : ∃ d, Linked w x d ∧ x ≠ me ∧ d.myConnect = true ∧ d.status = .server := by
  rw [World.isLink, Bool.and_eq_true, World.found_iff] at h
  obtain ⟨⟨hme, d, hd⟩, hany⟩ := h
  simp only [hd.1, Option.any_some, Bool.and_eq_true, decide_eq_true_eq] at hany
  exact ⟨d, hd, hme, hany.1.1, hany.1.2⟩

theorem Inv.server (h : Inv none w) (hs : w.isServer p = true) :
    ∃ e, Linked w p e ∧ (e.status = .me ∧ p = me ∨ e.status = .server ∧ p ≠ me) := by
  cases he : w.client p with
  | none => simp [World.isServer, he] at hs
  | some e =>
    simp only [World.isServer, he, Option.any_some, Bool.or_eq_true, Bool.and_eq_true, decide_eq_true_eq] at hs
    rcases hs with hst | ⟨hst, hfound⟩
    · obtain rfl := h.only_me he hst
      obtain ⟨m, hm, -⟩ := h.me_linked
      exact ⟨e, ⟨he, hm.2⟩, .inl ⟨hst, rfl⟩⟩
    · obtain ⟨hme, e', he'⟩ := World.found_iff.mp hfound
      obtain rfl : e' = e := by simpa [he'.1] using he
      exact ⟨e', he', .inr ⟨hst, hme⟩⟩

/-- The direction of a server is a link of its own, or ourselves. -/
theorem Inv.direction (h : Inv none w) (hs : w.isServer p = true) :
    ∃ e t d, Linked w p e ∧ (e.status = .me ∨ e.status = .server) ∧ e.link = some t ∧ Linked w t d ∧ d.link = some t := by
  obtain ⟨e, he, ⟨-, rfl⟩ | ⟨hst, hme⟩⟩ := h.server hs
  · obtain ⟨m, hm, -, hlink⟩ := h.me_linked
    exact ⟨m, me, m, hm, .inl (h.status_me hm), hlink, hm, hlink⟩
  · cases hlocal : e.myConnect with
    | true =>
      have hlink := ((h.placed he).local_link hlocal).1
      exact ⟨e, p, e, he, .inr hst, hlink, he, hlink⟩
    | false =>
      rcases (h.placed he).remote_link hlocal hme with ⟨hhalf, -⟩ | ⟨-, t, d, ht, hd, -, hmy, -⟩
      · simp at hhalf
      · exact ⟨e, t, d, he, .inr hst, ht, hd, ((h.placed hd).local_link (hmy.resolve_right (by simp))).1⟩

/-- A server behind a link is not ourselves. -/
theorem Inv.behind (h : Inv none w) (hl : x ≠ me) (hb : w.isBehind p x = true) : ∃ e, Linked w p e ∧ p ≠ me ∧
    e.link = some x ∧ e.status = .server := by
  rw [World.isBehind, Bool.and_eq_true] at hb
  obtain ⟨e, he, hkind⟩ := h.server hb.1
  have hlink : e.link = some x := by simpa [he.1] using hb.2
  obtain ⟨m, hm, -, hmlink⟩ := h.me_linked
  rcases hkind with ⟨-, rfl⟩ | ⟨hst, hme⟩
  · obtain rfl := hm.unique he
    exact absurd (Option.some.inj (hlink.symm.trans hmlink)) hl
  · exact ⟨e, he, hme, hlink, hst⟩

/-- What is written when `x` comes: its fields, and those of its server. -/
theorem joined_other {e e' : Client} (hp : c.servptr = some p) (he : w.client p = some e) (he' : e' = e.adopt p x c) (hz : z ≠ x) :
    Function.update (Function.update w.client x (some c)) p (some e') z = (w.client z).map fun d => d.adopt z x c := by
  by_cases hzp : z = p
  · rw [hzp, Function.update_self, he, he']
    rfl
  · rw [Function.update_of_ne hzp, Function.update_of_ne hz]
    cases w.client z with
    | none => rfl
    | some d => exact congrArg some (Client.adopt_eq (by rw [hp]; simpa using Ne.symm hzp)).symm

theorem joined_self {e' : Client} (hne : x ≠ p) :
    Function.update (Function.update w.client x (some c)) p (some e') x = some c := by
  rw [Function.update_of_ne hne, Function.update_self]

theorem Inv.not_alloc (h : Inv half w) : w.client w.next = none := by
  cases hd : w.client w.next with
  | none => rfl
  | some d => exact absurd (h.alloc_lt hd) (Nat.lt_irrefl _)

theorem Inv.makeLocalClient (h : Inv none w) : Inv none (makeLocalClient w) := by
  have hme : w.next ≠ me := by
    obtain ⟨m, hm, -⟩ := h.me_linked
    have := h.alloc_lt hm.1
    omega
  refine h.join (x := w.next) (c := ⟨.unknown, true, some w.next, none, [], [], false, false, false⟩)
    ⟨Function.update_self .., fun z hz => ?_, rfl, rfl, ⟨Nat.le_succ _, Nat.lt_succ_self _⟩, rfl, rfl, rfl, rfl⟩
    ⟨.inl rfl, by simp [h.not_alloc], hme, by simp, ⟨rfl, rfl⟩, by simp, by simp, by simp, by simp⟩
  show Function.update w.client w.next _ z = _
  rw [Function.update_of_ne hz]
  cases w.client z with
  | none => rfl
  | some d => exact congrArg some (Client.adopt_eq (by simp)).symm

/-- The server of one that comes is another, and is there. -/
theorem Fits.server_found (hf : Fits half w x c) (hp : c.servptr = some p) (hst : c.status ≠ .unknown) :
    x ≠ p ∧ ∃ e, w.client p = some e ∧ Function.update w.client x (some c) p = some e := by
  obtain ⟨p', e, hp', hlt, he, -⟩ := hf.up hst
  obtain rfl : p = p' := by simpa [hp] using hp'
  refine ⟨Nat.ne_of_gt hlt, e, he.1, ?_⟩
  rw [Function.update_of_ne (Nat.ne_of_lt hlt)]
  exact he.1

/-- A connection that registers fits, with ourselves as its server. -/
theorem Inv.fits_registering (h : Inv none w) (hx : w.isRegistering x = true) {st : Status} (hst : st = .client ∨ st = .server) :
    ∃ d, Linked w x d ∧ d.myConnect = true ∧ Fits none w x { d with status := st, servptr := some me } := by
  obtain ⟨d, hd, hme, hlocal, hunknown, hdead, hclosing⟩ := World.registering hx
  obtain ⟨m, hm, -⟩ := h.me_linked
  have hkind : st ≠ .unknown ∧ st ≠ .me := by rcases hst with rfl | rfl <;> simp
  have hleaf := h.leaf hd (by simp [hunknown]) hme
  refine ⟨d, hd, hlocal, .inl rfl, ?_, hme, hkind.2, hleaf, by simp [hdead, hclosing], ?_, by simp [hlocal], ?_⟩
  · intro d' hd'
    obtain rfl : d = d' := by simpa [hd.1] using hd'
    exact ⟨hd.2, hunknown, hclosing, hkind.1⟩
  · exact fun _ => ⟨((h.placed hd).local_link hlocal).1, fun _ => rfl⟩
  · exact fun _ => ⟨me, m, rfl, Nat.pos_of_ne_zero hme, hm, .inl (h.status_me hm)⟩

theorem Inv.registerLocalUser (h : Inv none w) (x : Nat) : ∃ w', registerLocalUser w x = some w' ∧ Inv none w' := by
  rw [Exit.registerLocalUser]
  split
  · obtain ⟨d, hd, hlocal, hf⟩ := h.fits_registering ‹_› (.inl rfl)
    obtain ⟨hne, m, hm, hm'⟩ := hf.server_found rfl (by simp)
    rw [World.modify_of_some (w := { w with unknownList := w.unknownList.erase x, lclientList := x :: w.lclientList }) hd.1,
      Option.bind_some, World.modify_of_some (c := m) hm']
    exact ⟨_, rfl, h.join ⟨joined_self hne, fun z hz => joined_other rfl hm (by simp [Client.adopt]) hz, rfl, rfl,
      ⟨Nat.le_refl _, h.alloc_lt hd.1⟩, by simp, by simp [hlocal], by simp, by simp⟩ hf⟩
  · exact ⟨w, rfl, h⟩

theorem Inv.serverEstab (h : Inv none w) (x : Nat) : ∃ w', serverEstab w x = some w' ∧ Inv none w' := by
  rw [Exit.serverEstab]
  split
  · obtain ⟨d, hd, hlocal, hf⟩ := h.fits_registering ‹_› (.inr rfl)
    obtain ⟨hne, m, hm, hm'⟩ := hf.server_found rfl (by simp)
    rw [World.modify_of_some (w := { w with
        unknownList := w.unknownList.erase x
        servList := x :: w.servList
        globalServList := w.globalServList ++ [x] }) hd.1, Option.bind_some, World.modify_of_some (c := m) hm']
    exact ⟨_, rfl, h.join ⟨joined_self hne, fun z hz => joined_other rfl hm (by simp [Client.adopt]) hz, rfl, rfl,
      ⟨Nat.le_refl _, h.alloc_lt hd.1⟩, by simp, by simp, by simp [hlocal], by simp⟩ hf⟩
  · exact ⟨w, rfl, h⟩

theorem Inv.next_ne_me (h : Inv none w) (hx : Linked w x d) : w.next ≠ me := Nat.ne_of_gt (Nat.zero_lt_of_lt (h.alloc_lt hx.1))

/-- What comes behind a link fits, when its server is behind the link. -/
theorem Inv.fits_behind {l : Nat} (h : Inv none w) (hl : w.isLink l = true) (hb : w.isBehind p l = true) {st : Status}
    (hst : st = .client ∨ st = .server) : Fits none w w.next ⟨st, false, some l, some p, [], [], false, false, false⟩ := by
  obtain ⟨d, hd, hlme, hlocal, hserver⟩ := World.link hl
  obtain ⟨e, he, hpme, hlink, hkind⟩ := h.behind hlme hb
  have hunknown : st ≠ .unknown := by rcases hst with rfl | rfl <;> simp
  refine ⟨.inl rfl, by simp [h.not_alloc], h.next_ne_me hd, by rcases hst with rfl | rfl <;> simp, ⟨rfl, rfl⟩, by simp, by simp,
    fun _ => ?_, fun _ => ?_⟩
  · exact .inr ⟨hunknown, l, d, rfl, hd, hserver, hlocal, p, e, rfl, he, .inr ⟨hpme, hlink⟩⟩
  · exact ⟨p, e, rfl, h.alloc_lt he.1, he, .inr hkind⟩

theorem Inv.not_unknown_next (h : Inv none w) : w.next ∉ w.unknownList := by
  intro hmem
  obtain ⟨d, hd, -⟩ := h.lists.unknown.2 _ hmem
  exact absurd hd.1 (by simp [h.not_alloc])

/-- A new client behind the link `l`, on the server `p` with the fields `e`. -/
def World.introduced (w : World) (l p : Nat) (e : Client) : World := { w with
  client := Function.update (Function.update w.client w.next (some ⟨.client, false, some l, some p, [], [], false, false, false⟩))
    p (some { e with users := w.next :: e.users })
  next := w.next + 1 }

/-- The link of a new client is not that of its server: it may come if it exits. -/
theorem Inv.introduced_closing {l : Nat} {e : Client} (h : Inv none w) (he : Linked w p e) (hkind : e.status = .me ∨ e.status = .server) :
    Inv (some w.next) ((w.introduced l p e).reflag w.next ⟨.client, false, some l, some p, [], [], false, false, false⟩
      true false false w.abortList) := by
  have hlt := h.alloc_lt he.1
  refine h.join (c := ⟨.client, false, some l, some p, [], [], true, false, false⟩)
    ⟨Function.update_self .., fun z hz => ?_, rfl, rfl, ⟨Nat.le_succ _, Nat.lt_succ_self _⟩,
      (List.erase_of_not_mem h.not_unknown_next).symm, by simp [World.reflag, World.introduced], by simp [World.reflag, World.introduced],
      by simp [World.reflag, World.introduced]⟩
    ⟨.inr rfl, by simp [h.not_alloc], h.next_ne_me he, by simp, ⟨rfl, rfl⟩, by simp, by simp, fun _ => .inl ⟨rfl, rfl⟩,
      fun _ => ⟨p, e, rfl, hlt, he, hkind⟩⟩
  show Function.update _ w.next _ z = _
  rw [Function.update_of_ne hz]
  have hserver : { e with users := w.next :: e.users } = e.adopt p w.next ⟨.client, false, some l, some p, [], [], true, false, false⟩ := by
    simp [Client.adopt]
  exact joined_other rfl he.1 hserver hz

theorem registerClient_eq {l : Nat} {e : Client} {fails : List Nat} (he : w.client p = some e) (hne : w.next ≠ p) :
    registerClient w l p fails = if e.link = some l then some (w.introduced l p e)
      else e.link.bind fun t => fakeDirection (w.introduced l p e) w.next t fails := by
  rw [registerClient, World.modify_of_some (c := e) ((Function.update_of_ne hne.symm ..).trans he), Option.bind_some]
  change ((w.introduced l p e).client p).bind _ = _
  rw [show (w.introduced l p e).client p = some { e with users := w.next :: e.users } from Function.update_self .., Option.bind_some]
  rfl

/-- A user whose server is in another direction exits. -/
theorem Inv.fakeDirection {l t : Nat} {e : Client} (h : Inv none w) (he : Linked w p e) (hkind : e.status = .me ∨ e.status = .server)
    (hd : Linked w t d) (hlink : d.link = some t) (fails : List Nat) :
    ∃ w', fakeDirection (w.introduced l p e) w.next t fails = some w' ∧ Inv none w' := by
  have hne : w.next ≠ p := Nat.ne_of_gt (h.alloc_lt he.1)
  obtain ⟨d', hd', hlink'⟩ : ∃ d', (w.introduced l p e).client t = some d' ∧ d'.link = some t := by
    by_cases htp : t = p
    · subst htp
      obtain rfl := he.unique hd
      exact ⟨_, Function.update_self .., hlink⟩
    · refine ⟨d, ?_, hlink⟩
      show Function.update _ p _ t = _
      rw [Function.update_of_ne htp, Function.update_of_ne (Nat.ne_of_lt (h.alloc_lt hd.1))]
      exact hd.1
  have hself : Linked (w.introduced l p e) w.next ⟨.client, false, some l, some p, [], [], false, false, false⟩ := by
    refine ⟨joined_self hne, fun hmem => ?_⟩
    have := (h.sound _).dead hmem
    simp [h.not_alloc] at this
  obtain ⟨w', hw', hexits⟩ := (h.introduced_closing he hkind).exitClosing hself (h.next_ne_me he) rfl (by simp) (by simp) fails
  refine ⟨w', ?_, hexits.inv⟩
  rw [Exit.fakeDirection, hd', Option.bind_some, hlink', Option.bind_some, hd', Option.bind_some]
  exact hw'

/-- A user comes behind a link: it stays, if its server is behind the link too, and else it exits. -/
theorem Inv.registerClient {l : Nat} (h : Inv none w) (hl : w.isLink l = true) (hs : w.isServer p = true) (fails : List Nat) :
    ∃ w', registerClient w l p fails = some w' ∧ Inv none w' := by
  obtain ⟨e, t, d, he, hkind, ht, hd, hdt⟩ := h.direction hs
  have hne : w.next ≠ p := Nat.ne_of_gt (h.alloc_lt he.1)
  rw [registerClient_eq he.1 hne]
  by_cases hlink : e.link = some l
  · have hb : w.isBehind p l = true := by
      rw [World.isBehind, Bool.and_eq_true]
      exact ⟨hs, by simp [he.1, hlink]⟩
    refine ⟨_, if_pos hlink, h.join ⟨joined_self hne, fun z hz => ?_, rfl, rfl, ⟨Nat.le_succ _, Nat.lt_succ_self _⟩,
      (List.erase_of_not_mem h.not_unknown_next).symm, by simp [World.introduced], by simp [World.introduced],
      by simp [World.introduced]⟩ (h.fits_behind hl hb (.inl rfl))⟩
    exact joined_other rfl he.1 (by simp [Client.adopt]) hz
  · rw [if_neg hlink, ht, Option.bind_some]
    exact h.fakeDirection he hkind hd hdt fails

theorem Inv.msServer (h : Inv none w) (clientP source : Nat) : ∃ w', msServer w clientP source = some w' ∧ Inv none w' := by
  rw [Exit.msServer]
  split
  · rename_i hmay
    rw [Bool.and_eq_true] at hmay
    have hf := h.fits_behind hmay.1 hmay.2 (.inr rfl)
    obtain ⟨hne, e, he, he'⟩ := hf.server_found rfl (by simp)
    rw [World.modify_of_some (c := e) he']
    exact ⟨_, rfl, h.join ⟨joined_self hne, fun z hz => joined_other rfl he (by simp [Client.adopt]) hz, rfl, rfl,
      ⟨Nat.le_succ _, Nat.lt_succ_self _⟩, (List.erase_of_not_mem h.not_unknown_next).symm, by simp, by simp, by simp⟩ hf⟩
  · exact ⟨w, rfl, h⟩

-- ============================================================================
-- Steps
-- ============================================================================

/-- `sendto_one` to one who is there. -/
theorem Inv.sendtoOne (h : Inv none w) (hx : Linked w x c) (hme : x ≠ me) (fails : Bool) :
    ∃ w', sendtoOne w x fails = some w' ∧ Inv none w' := by
  obtain ⟨l, d, hl, hd⟩ := h.link_found hx hme (.inl (by simp))
  rw [Exit.sendtoOne, hx.1, Option.bind_some, hl]
  cases fails with
  | false => exact ⟨w, by simp [hd.1], h⟩
  | true =>
    obtain ⟨w', hw', hinv, -⟩ := h.sendLinebuf hd
    exact ⟨w', hw', hinv⟩

theorem Inv.step (h : Inv none w) (e : Event) : ∃ w', step w e = some w' ∧ Inv none w' := by
  cases e with
  | connect => exact ⟨_, rfl, h.makeLocalClient⟩
  | register x => exact h.registerLocalUser x
  | estab x => exact h.serverEstab x
  | uid clientP server fails =>
    simp only [Exit.step, msUid]
    split
    · rename_i hmay
      rw [Bool.and_eq_true, World.isBehind, Bool.and_eq_true] at hmay
      exact h.registerClient hmay.1 hmay.2.1 fails
    · exact ⟨w, rfl, h⟩
  | nick clientP server fails =>
    simp only [Exit.step, msNick]
    split
    · rename_i hmay
      rw [Bool.and_eq_true] at hmay
      exact h.registerClient hmay.1 hmay.2 fails
    · exact ⟨w, rfl, h⟩
  | server clientP source => exact h.msServer clientP source
  | send target fails =>
    simp only [Exit.step]
    split
    · obtain ⟨hme, c, hc⟩ := World.found_iff.mp ‹_›
      exact h.sendtoOne hc hme fails
    · exact ⟨w, rfl, h⟩
  | exit x fails =>
    simp only [Exit.step]
    split
    · obtain ⟨hme, c, hc⟩ := World.found_iff.mp ‹_›
      cases hclosing : c.closing with
      | true => exact ⟨w, by rw [Exit.exitClient, hc.1, Option.bind_some, if_pos hclosing], h⟩
      | false =>
        obtain ⟨w', hw', hexits⟩ := h.exitClient hc hme hclosing fails
        exact ⟨w', hw', hexits.inv⟩
    · exact ⟨w, rfl, h⟩
  | exitAborted fails =>
    obtain ⟨w', hw', hinv, -⟩ := h.exitAborteds fails w.abortList h.nodup.2 fun _ hx => hx
    exact ⟨w', hw', hinv⟩
  | freeExited =>
    obtain ⟨w', hw', hinv, -⟩ := h.freeExiteds w.deadList rfl
    exact ⟨w', hw', hinv⟩

theorem inv_of_reach (h : Reach step anyStep World.start w) : Inv none w := by
  refine h.invariant inv_start fun w e w' hinv _ hw' => ?_
  obtain ⟨w₁, hw₁, hinv₁⟩ := hinv.step e
  obtain rfl : w₁ = w' := by simpa [hw'] using hw₁.symm
  exact hinv₁

/-- In every run every step finds the clients it needs: those behind a link find the link, those on a server find the server and are
    among its users or its servers, and what is on a list is there. -/
theorem clients_safe (h : Reach step anyStep World.start w) :
    (∀ e, (step w e).isSome) ∧
      (∀ x c, Linked w x c → x ≠ me → ∃ l d, c.link = some l ∧ Linked w l d ∧
        (l = x ∨ d.status = .server ∧ d.myConnect = true)) ∧
      (∀ x c, Linked w x c → x ≠ me → c.status ≠ .unknown → ∃ p d, c.servptr = some p ∧ Linked w p d ∧ c.Below x d) ∧
      (∀ p d, w.client p = some d → ∀ x ∈ d.users ++ d.servers, ∃ c, Linked w x c ∧ c.servptr = some p) ∧
      ∀ x ∈ w.unknownList ++ w.lclientList ++ w.servList ++ w.globalServList ++ w.abortList, ∃ c, Linked w x c := by
  have hinv := inv_of_reach h
  refine ⟨fun e => ?_, fun x c hx hme => ?_, fun x c hx hme hst => ?_, fun p d hd x hx => ?_, fun x hx => ?_⟩
  · obtain ⟨w', hw', -⟩ := hinv.step e
    simp [hw']
  · cases hlocal : c.myConnect with
    | true => exact ⟨x, c, ((hinv.placed hx).local_link hlocal).1, hx, .inl rfl⟩
    | false =>
      rcases (hinv.placed hx).remote_link hlocal hme with ⟨hhalf, -⟩ | ⟨-, l, d, hl, hd, hserver, hmy, -⟩
      · simp at hhalf
      · exact ⟨l, d, hl, hd, .inr ⟨hserver, hmy.resolve_right (by simp)⟩⟩
  · obtain ⟨p, d, hp, -, hd, -, hbelow⟩ := (hinv.placed hx).up hme hst
    exact ⟨p, d, hp, hd, hbelow.resolve_left (by simp)⟩
  · obtain ⟨-, hu, hs⟩ := hinv.tree hd
    rcases List.mem_append.mp hx with hx | hx
    · obtain ⟨c, hc, -, hp⟩ := hu x hx
      exact ⟨c, hc, hp⟩
    · obtain ⟨c, hc, -, hp⟩ := hs x hx
      exact ⟨c, hc, hp⟩
  · have hof : ∀ {l : List Nat} {P : Client → Prop}, Holds w l P → x ∈ l → ∃ c, Linked w x c := by
      intro l P hl hx
      obtain ⟨c, hc, -⟩ := hl.2 x hx
      exact ⟨c, hc⟩
    simp only [List.mem_append] at hx
    rcases hx with (((hx | hx) | hx) | hx) | hx
    · exact hof hinv.lists.unknown hx
    · exact hof hinv.lists.lclient hx
    · exact hof hinv.lists.serv hx
    · exact hof hinv.lists.globalServ hx
    · obtain ⟨-, c, hc, -⟩ := (hinv.sound x).abort.mp hx
      exact ⟨c, hc⟩

theorem clients_safe_linked :
    let w := [Event.connect, .estab 1, .nick 1 1 []].foldl (Reach.perform step) World.start
    (∀ e, (step w e).isSome) ∧
      (∀ x c, Linked w x c → x ≠ me → ∃ l d, c.link = some l ∧ Linked w l d ∧
        (l = x ∨ d.status = .server ∧ d.myConnect = true)) ∧
      (∀ x c, Linked w x c → x ≠ me → c.status ≠ .unknown → ∃ p d, c.servptr = some p ∧ Linked w p d ∧ c.Below x d) ∧
      (∀ p d, w.client p = some d → ∀ x ∈ d.users ++ d.servers, ∃ c, Linked w x c ∧ c.servptr = some p) ∧
      ∀ x ∈ w.unknownList ++ w.lclientList ++ w.servList ++ w.globalServList ++ w.abortList, ∃ c, Linked w x c := by
  have h : Reach step anyStep World.start
      (Reach.perform step (Reach.perform step (Reach.perform step World.start .connect) (.estab 1)) (.nick 1 1 [])) :=
    ((Reach.init.performed trivial).performed trivial).performed trivial
  exact clients_safe h

-- a user whose server is behind the other link is gone, and the server does not have it
example : (([.connect, .connect, .estab 1, .estab 2, .nick 1 2 []].foldlM step World.start).map fun w =>
    (w.deadList, (w.client 2).map (·.users))) = some ([3], some []) := rfl

/-- In every run, who exits is buried with no pointer to it left, the walk over `abort_list` buries all
    that are on it, and those who are buried are freed, each once, and no others. -/
theorem exits_complete (h : Reach step anyStep World.start w) :
    (∀ x c fails, Linked w x c → x ≠ me → c.closing = false → ∃ w', step w (.exit x fails) = some w' ∧ x ∈ w'.deadList ∧
        ∀ y d, Linked w' y d → (y ≠ me → d.link ≠ some x ∧ (d.status ≠ .unknown → d.servptr ≠ some x)) ∧
          x ∉ d.users ∧ x ∉ d.servers) ∧
      (∀ fails, ∃ w', step w (.exitAborted fails) = some w' ∧ ∀ x ∈ w.abortList, x ∈ w'.deadList) ∧
      ∃ w', step w .freeExited = some w' ∧ w'.deadList = [] ∧ ∀ x, w'.client x = if x ∈ w.deadList then none else w.client x := by
  have hinv := inv_of_reach h
  refine ⟨fun x c fails hx hme hclosing => ?_, fun fails => ?_, ?_⟩
  · obtain ⟨w', hw', hexits⟩ := hinv.exitClient hx hme hclosing fails
    have hgone : ∀ d, ¬Linked w' x d := fun d hd => hd.2 hexits.gone
    refine ⟨w', by rw [Exit.step, if_pos (World.found_iff.mpr ⟨hme, c, hx⟩), hw'], hexits.gone, fun y d hy =>
      ⟨fun hyme => ⟨?_, ?_⟩, ?_, ?_⟩⟩
    · intro hlink
      obtain ⟨l, e, hl, he⟩ := hexits.inv.link_found hy hyme (.inl (by simp))
      obtain rfl : x = l := by simpa [hlink] using hl
      exact hgone e he
    · intro hst hserv
      obtain ⟨p, e, hp, -, he, -⟩ := (hexits.inv.placed hy).up hyme hst
      obtain rfl : x = p := by simpa [hserv] using hp
      exact hgone e he
    · intro hmem
      obtain ⟨e, he, -⟩ := (hexits.inv.tree hy.1).users x hmem
      exact hgone e he
    · intro hmem
      obtain ⟨e, he, -⟩ := (hexits.inv.tree hy.1).servers x hmem
      exact hgone e he
  · obtain ⟨w', hw', -, -, hgone⟩ := hinv.exitAborteds fails w.abortList hinv.nodup.2 fun _ hx => hx
    exact ⟨w', hw', hgone⟩
  · obtain ⟨w', hw', -, hnone, hclient⟩ := hinv.freeExiteds w.deadList rfl
    exact ⟨w', hw', hnone, hclient⟩

theorem exits_complete_linked :
    let w := [Event.connect, .estab 1, .nick 1 1 [], .send 2 true].foldl (Reach.perform step) World.start
    (∀ x c fails, Linked w x c → x ≠ me → c.closing = false → ∃ w', step w (.exit x fails) = some w' ∧ x ∈ w'.deadList ∧
        ∀ y d, Linked w' y d → (y ≠ me → d.link ≠ some x ∧ (d.status ≠ .unknown → d.servptr ≠ some x)) ∧
          x ∉ d.users ∧ x ∉ d.servers) ∧
      (∀ fails, ∃ w', step w (.exitAborted fails) = some w' ∧ ∀ x ∈ w.abortList, x ∈ w'.deadList) ∧
      ∃ w', step w .freeExited = some w' ∧ w'.deadList = [] ∧ ∀ x, w'.client x = if x ∈ w.deadList then none else w.client x := by
  have h : Reach step anyStep World.start (Reach.perform step (Reach.perform step
      (Reach.perform step (Reach.perform step World.start .connect) (.estab 1)) (.nick 1 1 [])) (.send 2 true)) :=
    (((Reach.init.performed trivial).performed trivial).performed trivial).performed trivial
  exact exits_complete h

end Bluebox.Exit
