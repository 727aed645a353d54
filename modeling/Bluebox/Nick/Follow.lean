/-
  Bluebox.Nick.Follow

  How the ledger follows the network: what a server has for a user is a nick
  with its time stamp, or the ID once the user was saved, and a `UID` or `NICK`
  is a claim.  Writing one client, taking a message off a link and sending one
  are each a move of the ledger.
-/
import Bluebox.Nick.Moves
import Bluebox.Nick.Basic

namespace Bluebox.Nick

open Bluebox.Lib

-- ============================================================================
-- Nicks and IDs
-- ============================================================================

/-- A nick that a local user may take. -/
def IsNick (nick : Bytes) : Prop := cleanNick nick true = true

theorem IsNick.facts {nick : Bytes} (h : IsNick nick) :
    nick ≠ [] ∧ isDigit (nick.headD 0) = false ∧ NoNul nick ∧ cleanNick nick false = true := by
  unfold IsNick cleanNick at h
  simp only [Bool.and_eq_true, bne_iff_ne, ne_eq, Bool.not_eq_true', Bool.true_and,
    List.all_eq_true, decide_eq_true_eq] at h
  obtain ⟨⟨⟨⟨hne, hdash⟩, hdigit⟩, hall⟩, hlen⟩ := h
  refine ⟨hne, hdigit, fun hmem => ?_, ?_⟩
  · exact absurd (hall 0 hmem) (by decide)
  · unfold cleanNick
    simp only [Bool.and_eq_true, bne_iff_ne, ne_eq, Bool.not_eq_true', Bool.false_and,
      List.all_eq_true, decide_eq_true_eq]
    exact ⟨⟨⟨⟨hne, hdash⟩, trivial⟩, hall⟩, hlen⟩

theorem nickArg_isNick {arg nick : Bytes} (h : nickArg arg = some nick) : IsNick nick := by
  unfold nickArg at h
  split at h
  · cases h
  · dsimp only at h
    split at h
    · cases h
      assumption
    · cases h

theorem digit_of_cleanUid {uid : Bytes} (h : cleanUid uid = true) :
    isDigit (uid.headD 0) = true ∧ uid ≠ [] := by
  unfold cleanUid at h
  simp only [Bool.and_eq_true, beq_iff_eq] at h
  refine ⟨h.1.1, fun hnil => ?_⟩
  rw [hnil] at h
  exact absurd h.2 (by decide)

/-- A digit is not a letter in another case. -/
theorem irccmp_ne_of_digit {s t : Bytes} (hs : isDigit (s.headD 0) = true)
    (ht : isDigit (t.headD 0) = false) (hne : t ≠ []) : irccmp s t ≠ 0 := by
  have hself : ∀ x : Fin 256, isDigit (UInt8.ofFin x) = true →
      toUpper (UInt8.ofFin x) = UInt8.ofFin x := by decide +kernel
  have hback : ∀ x : Fin 256, isDigit (toUpper (UInt8.ofFin x)) = true →
      isDigit (UInt8.ofFin x) = true := by decide +kernel
  cases s with
  | nil => exact absurd hs (by decide)
  | cons a s =>
    cases t with
    | nil => exact absurd rfl hne
    | cons b t =>
      have hab : toUpper a ≠ toUpper b := fun h => by
        have ha : toUpper a = a := hself a.toFin hs
        have hb : isDigit b = true := hback b.toFin (show isDigit (toUpper b) = true by
          rw [← h, ha]
          exact hs)
        exact absurd (hb.symm.trans ht) (by decide)
      rw [irccmp, if_neg hab]
      intro h
      exact hab (UInt8.toNat_inj.mp (by omega))

-- ============================================================================
-- Lists of clients
-- ============================================================================

section Lists

variable {l : List Client} {c d : Client} {u : Bytes}

theorem findId_mem (h : findId l u = some c) : c ∈ l ∧ c.id = u :=
  ⟨List.mem_of_find?_eq_some h, by simpa using List.find?_some h⟩

theorem findId_cons : findId (c :: l) u = if c.id = u then some c else findId l u := by
  unfold findId
  by_cases h : c.id = u
  · rw [if_pos h, List.find?_cons_of_pos (by simpa using h)]
  · rw [if_neg h, List.find?_cons_of_neg (by simpa using h)]

theorem findId_of_mem (hl : (l.map Client.id).Nodup) (hc : c ∈ l) : findId l c.id = some c := by
  induction l with
  | nil => exact absurd hc List.not_mem_nil
  | cons d l ih =>
    rw [List.map_cons, List.nodup_cons] at hl
    rw [findId_cons]
    rcases List.mem_cons.mp hc with rfl | hc
    · exact if_pos rfl
    · have hne : d.id ≠ c.id := fun h => hl.1 (h ▸ List.mem_map_of_mem hc)
      rw [if_neg hne]
      exact ih hl.2 hc

theorem findId_setClient : findId (setClient l c) u
    = if u = c.id then (findId l u).map fun _ => c else findId l u := by
  induction l with
  | nil => simp [findId, setClient]
  | cons d l ih =>
    unfold setClient at ih ⊢
    rw [List.map_cons, findId_cons, findId_cons, ih]
    by_cases hd : d.id = c.id
    · rw [if_pos hd]
      by_cases hu : u = c.id
      · rw [if_pos hu.symm, if_pos hu, if_pos (hd.trans hu.symm)]
        rfl
      · rw [if_neg (Ne.symm hu), if_neg hu, if_neg hu, if_neg (fun h => hu (h.symm.trans hd))]
    · rw [if_neg hd]
      by_cases hu : u = c.id
      · have hdu : d.id ≠ u := fun h => hd (h.trans hu)
        rw [if_neg hdu, if_neg hdu]
      · rw [if_neg hu, if_neg hu]

theorem setClient_ids : (setClient l c).map Client.id = l.map Client.id := by
  unfold setClient
  rw [List.map_map]
  refine List.map_congr_left fun d _ => ?_
  by_cases hd : d.id = c.id
  · simp [hd]
  · simp [hd]

theorem mem_setClient (h : d ∈ setClient l c) : d = c ∨ d ∈ l := by
  obtain ⟨e, he, rfl⟩ := List.mem_map.mp h
  by_cases hd : e.id = c.id
  · exact Or.inl (if_pos hd)
  · rw [if_neg hd]
    exact Or.inr he

/-- Whom `find_client` finds by a nick. -/
theorem findClient_some {nick : Bytes} (hnick : IsNick nick) (h : findClient l nick = some c) :
    c ∈ l ∧ irccmp nick c.name = 0 := by
  obtain ⟨hne, hdigit, -⟩ := hnick.facts
  rw [findClient, if_neg hne, hdigit, if_neg Bool.false_ne_true] at h
  exact ⟨List.mem_of_find?_eq_some h, by simpa using List.find?_some h⟩

theorem findClient_none {nick : Bytes} (hnick : IsNick nick) (h : findClient l nick = none)
    (hc : c ∈ l) : irccmp nick c.name ≠ 0 := by
  obtain ⟨hne, hdigit, -⟩ := hnick.facts
  rw [findClient, if_neg hne, hdigit, if_neg Bool.false_ne_true] at h
  simpa using List.find?_eq_none.mp h c hc

end Lists

-- ============================================================================
-- The ledger of a network
-- ============================================================================

/-- The server a UID was made by. -/
def Config.home (cfg : Config) (id : Bytes) : Side := if id.take 3 = cfg.sid .a then .a else .b

/-- `sameuser`, for the users of two UIDs. -/
def Config.sameuser (cfg : Config) (u w : Bytes) : Bool :=
  irccmp (cfg.ident w).1 (cfg.ident u).1 == 0 && irccmp (cfg.ident w).2 (cfg.ident u).2 == 0

/-- How a collision of an incoming claim with another one is settled. -/
def Config.loser (cfg : Config) (u : Bytes) (t : Nat) (w : Bytes) (t' : Nat) : Loser :=
  if t = 0 ∨ t' = 0 ∨ t = t' then .both
  else if newLoses (cfg.sameuser u w) t t' then .first
  else .second

theorem Config.sameuser_comm (cfg : Config) (u w : Bytes) :
    cfg.sameuser w u = cfg.sameuser u w := by
  have hcomm : ∀ s t : Bytes, (irccmp s t == 0) = (irccmp t s == 0) := by
    intro s t
    rw [Bool.eq_iff_iff, beq_iff_eq, beq_iff_eq]
    exact irccmp_eq_zero_comm s t
  unfold Config.sameuser
  rw [hcomm (cfg.ident u).1, hcomm (cfg.ident u).2]

/-- The other server settles it alike. -/
theorem Config.loser_swap (cfg : Config) (u : Bytes) (t : Nat) (w : Bytes) (t' : Nat) :
    cfg.loser w t' u t = (cfg.loser u t w t').swap := by
  unfold Config.loser newLoses
  rw [cfg.sameuser_comm u w]
  by_cases htie : t = 0 ∨ t' = 0 ∨ t = t'
  · rw [if_pos htie, if_pos (by omega)]
    rfl
  · rw [if_neg htie, if_neg (by omega)]
    rcases Nat.lt_or_gt_of_ne (fun h : t = t' => htie (Or.inr (Or.inr h))) with hlt | hlt
    · have hngt : ¬ t' < t := by omega
      cases cfg.sameuser u w <;> simp [hlt, hngt, Loser.swap]
    · have hngt : ¬ t < t' := by omega
      cases cfg.sameuser u w <;> simp [hlt, hngt, Loser.swap]

/-- The rules the servers follow. -/
def Config.rules (cfg : Config) : Rules Bytes Bytes Nat Bytes :=
  ⟨cfg.home, List.map toUpper, cfg.loser, cfg.loser_swap⟩

/-- What a server has for a client. -/
def Client.holding (c : Client) : Holding Bytes Nat :=
  if isDigit (c.name.headD 0) then .saved else .named c.name c.tsinfo

/-- What a server has for a UID. -/
def held (l : List Client) (u : Bytes) : Option (Holding Bytes Nat) :=
  (findId l u).map Client.holding

/-- A message as a word. -/
def Message.word : Message → Word Bytes Bytes Nat
  | .uid i => .claim true i.id i.nick i.ts
  | .nick source n ts => .claim false source n ts
  | .save id ts => .save id ts

/-- A client as a server has it: saved, or with a nick. -/
structure ClientOk (cfg : Config) (x : Side) (c : Client) : Prop where
  id : cleanUid c.id = true
  name : c.name = c.id ∧ c.tsinfo = saveNickTs ∨ IsNick c.name
  username : c.username = (cfg.ident c.id).1
  host : c.host = (cfg.ident c.id).2
  myClient : c.myClient = true ↔ cfg.home c.id = x
  tsinfo : c.tsinfo ≠ 0

/-- A message as a server sends it. -/
def Message.Ok (cfg : Config) : Message → Prop
  | .uid i => cleanUid i.id = true ∧ IsNick i.nick ∧ i.ts ≠ 0 ∧
    i.username = (cfg.ident i.id).1 ∧ i.host = (cfg.ident i.id).2
  | .nick _ n ts => IsNick n ∧ ts ≠ 0
  | .save _ _ => True

/-- The ledger says what the servers have and what is under way. -/
structure Models (cfg : Config) (s : Net) (L : Ledger Bytes Bytes Nat) : Prop where
  view : ∀ x u, L.view cfg.rules x u = held (s.clients x) u
  link : ∀ x, L.link x = (s.link x).map Message.word
  past : ∀ u t, t ∈ L.past u ↔ t ∈ s.past u
  unused : ∀ u, L.cur u = none → s.past u = []
  nodup : ∀ x, ((s.clients x).map Client.id).Nodup
  client : ∀ x, ∀ c ∈ s.clients x, ClientOk cfg x c
  message : ∀ x, ∀ m ∈ s.link x, m.Ok cfg

-- ============================================================================
-- Saved clients and clients with nicks
-- ============================================================================

section Clients

variable {cfg : Config} {x : Side} {c : Client} {n n' : Bytes}

theorem saveNickTs_ne_zero : saveNickTs ≠ 0 := by decide

theorem fold_eq_iff (hn : IsNick n) (hn' : IsNick n') :
    cfg.rules.fold n = cfg.rules.fold n' ↔ irccmp n n' = 0 :=
  (irccmp_eq_zero_iff hn.facts.2.2.1 hn'.facts.2.2.1).symm

theorem ClientOk.saved_or_nick (hc : ClientOk cfg x c) :
    c.holding = .saved ∧ isDigit (c.name.headD 0) = true ∧ c.name = c.id ∧ c.tsinfo = saveNickTs ∨
    c.holding = .named c.name c.tsinfo ∧ isDigit (c.name.headD 0) = false ∧ IsNick c.name := by
  unfold Client.holding
  rcases hc.name with ⟨hname, hts⟩ | hnick
  · have hdigit : isDigit (c.name.headD 0) = true := hname ▸ (digit_of_cleanUid hc.id).1
    rw [if_pos hdigit]
    exact Or.inl ⟨rfl, hdigit, hname, hts⟩
  · rw [hnick.facts.2.1, if_neg Bool.false_ne_true]
    exact Or.inr ⟨rfl, rfl, hnick⟩

/-- An ID is not a nick in another case. -/
theorem ClientOk.irccmp_id (hc : ClientOk cfg x c) (hn : IsNick n) : irccmp n c.id ≠ 0 := by
  rw [Ne, irccmp_eq_zero_comm]
  exact irccmp_ne_of_digit (digit_of_cleanUid hc.id).1 hn.facts.2.1 hn.facts.1

theorem ClientOk.to_saved (hc : ClientOk cfg x c) :
    ClientOk cfg x { c with name := c.id, tsinfo := saveNickTs } ∧
      Client.holding { c with name := c.id, tsinfo := saveNickTs } = .saved :=
  ⟨⟨hc.id, Or.inl ⟨rfl, rfl⟩, hc.username, hc.host, hc.myClient, saveNickTs_ne_zero⟩,
    if_pos (digit_of_cleanUid hc.id).1⟩

theorem ClientOk.to_nick (hc : ClientOk cfg x c) (hn : IsNick n) {t : Nat} (ht : t ≠ 0) :
    ClientOk cfg x { c with name := n, tsinfo := t } ∧
      Client.holding { c with name := n, tsinfo := t } = .named n t := by
  refine ⟨⟨hc.id, Or.inr hn, hc.username, hc.host, hc.myClient, ht⟩, if_neg ?_⟩
  rw [hn.facts.2.1]
  exact Bool.false_ne_true

theorem ClientOk.saveUser_eq (hc : ClientOk cfg x c) (hn : IsNick c.name) (now : Nat) :
    saveUser c now = { c with name := c.id, tsinfo := saveNickTs } := by
  unfold saveUser
  split
  · rfl
  · unfold changeRemoteNick
    rw [if_neg (hc.irccmp_id hn), if_pos saveNickTs_ne_zero]

theorem ClientOk.loseNick_eq (hc : ClientOk cfg x c) (hn : IsNick c.name) (now : Nat) :
    changeRemoteNick c saveNickTs c.id now = { c with name := c.id, tsinfo := saveNickTs } := by
  unfold changeRemoteNick
  rw [if_neg (hc.irccmp_id hn), if_pos saveNickTs_ne_zero]

end Clients

-- ============================================================================
-- One client written or added
-- ============================================================================

/-- `l'` is `l` with the client `c`. -/
structure Put (l l' : List Client) (c : Client) : Prop where
  held : ∀ v, held l' v = if v = c.id then some c.holding else held l v
  nodup : (l.map Client.id).Nodup → (l'.map Client.id).Nodup
  mem : ∀ d ∈ l', d = c ∨ d ∈ l

section Put

variable {l : List Client} {c d : Client}

theorem put_setClient (h : findId l c.id = some d) : Put l (setClient l c) c where
  held v := by
    unfold Nick.held
    rw [findId_setClient]
    by_cases hv : v = c.id
    · rw [if_pos hv, if_pos hv, hv, h]
      rfl
    · rw [if_neg hv, if_neg hv]
  nodup hl := by rwa [setClient_ids]
  mem _ := mem_setClient

theorem put_cons (h : findId l c.id = none) : Put l (c :: l) c where
  held v := by
    unfold Nick.held
    rw [findId_cons]
    by_cases hv : c.id = v
    · rw [if_pos hv, if_pos hv.symm]
      rfl
    · rw [if_neg hv, if_neg (Ne.symm hv)]
  nodup hl := by
    rw [List.map_cons, List.nodup_cons]
    refine ⟨fun hmem => ?_, hl⟩
    obtain ⟨e, he, heq⟩ := List.mem_map.mp hmem
    have hnone := List.find?_eq_none.mp h e he
    simp [heq] at hnone
  mem _ hd := List.mem_cons.mp hd

theorem put_self (h : findId l c.id = some c) : Put l l c where
  held v := by
    by_cases hv : v = c.id
    · rw [if_pos hv, hv, Nick.held, h]
      rfl
    · rw [if_neg hv]
  nodup hl := hl
  mem _ hd := Or.inr hd

end Put

-- ============================================================================
-- The ledger follows the network
-- ============================================================================

section Follow

variable {cfg : Config} {s : Net} {L : Ledger Bytes Bytes Nat} {x : Side} {c : Client}
  {l : List Client} {m : Message} {rest : List Message} {u : Bytes} {t : Nat}

@[simp] theorem Net.act_clients_self (out : List Message) : (s.act x l out).clients x = l :=
  Function.update_self ..

theorem Net.act_clients_of_ne (out : List Message) {z : Side} (hz : z ≠ x) :
    (s.act x l out).clients z = s.clients z := Function.update_of_ne hz ..

@[simp] theorem Net.act_link_self (out : List Message) : (s.act x l out).link x = s.link x ++ out :=
  Function.update_self ..

theorem Net.act_link_of_ne (out : List Message) {z : Side} (hz : z ≠ x) :
    (s.act x l out).link z = s.link z := Function.update_of_ne hz ..

/-- The servers after one client was written. -/
theorem Models.put (hM : Models cfg s L) (hput : Put (s.clients x) l c) (hc : ClientOk cfg x c)
    (out : List Message) : (∀ z, (((s.act x l out).clients z).map Client.id).Nodup) ∧
      ∀ z, ∀ d ∈ (s.act x l out).clients z, ClientOk cfg z d := by
  constructor
  · intro z
    by_cases hz : z = x
    · subst hz
      rw [Net.act_clients_self]
      exact hput.nodup (hM.nodup z)
    · rw [Net.act_clients_of_ne out hz]
      exact hM.nodup z
  · intro z d hd
    by_cases hz : z = x
    · subst hz
      rw [Net.act_clients_self] at hd
      rcases hput.mem d hd with rfl | hd
      · exact hc
      · exact hM.client z d hd
    · rw [Net.act_clients_of_ne out hz] at hd
      exact hM.client z d hd

theorem Models.act_message (hM : Models cfg s L) {out : List Message} (hout : ∀ m ∈ out, m.Ok cfg) :
    ∀ z, ∀ m ∈ (s.act x l out).link z, m.Ok cfg := by
  intro z m hm
  by_cases hz : z = x
  · subst hz
    rw [Net.act_link_self] at hm
    rcases List.mem_append.mp hm with hm | hm
    · exact hM.message z m hm
    · exact hout m hm
  · rw [Net.act_link_of_ne out hz] at hm
    exact hM.message z m hm

theorem Models.act_link (hM : Models cfg s L) (m : Message) {L' : Ledger Bytes Bytes Nat}
    (hself : L'.link x = L.link x ++ [m.word]) (hother : ∀ z, z ≠ x → L'.link z = L.link z) :
    ∀ z, L'.link z = ((s.act x l [m]).link z).map Message.word := by
  intro z
  by_cases hz : z = x
  · subst hz
    rw [Net.act_link_self, hself, hM.link, List.map_append]
    rfl
  · rw [Net.act_link_of_ne _ hz, hother z hz]
    exact hM.link z

/-- A server says what it did to its own user. -/
theorem Models.speak (hM : Models cfg s L) (hput : Put (s.clients x) l c) (hc : ClientOk cfg x c)
    (hm : m.Ok cfg) (hsubject : m.word.subject = c.id) (hhome : cfg.home c.id = x)
    (hhear : hear c.id (L.cur c.id) m.word = some c.holding) {s' : Net}
    (hclients : s'.clients = (s.act x l [m]).clients) (hlinks : s'.link = (s.act x l [m]).link)
    (hpast : ∀ u t, t ∈ (L.speak cfg.rules m.word).past u ↔ t ∈ s'.past u)
    (hunused : ∀ u, u ≠ c.id → s.past u = [] → s'.past u = []) :
    Models cfg s' (L.speak cfg.rules m.word) where
  view z v := by
    have hx : cfg.rules.home m.word.subject = x := hsubject ▸ hhome
    rw [hclients]
    by_cases hz : z = x
    · subst hz
      rw [Ledger.view_speak hx, hsubject, hhear, hM.view, Net.act_clients_self, hput.held]
    · rw [Ledger.view_speak_away (fun h => hz (h.symm.trans hx)), Net.act_clients_of_ne _ hz]
      exact hM.view z v
  link := by
    rw [hlinks]
    refine hM.act_link m ?_ fun z hz => ?_
    · rw [← hhome, ← hsubject]
      exact Ledger.speak_link_self
    · refine Ledger.speak_link_of_ne fun h => hz ?_
      rw [h, hsubject]
      exact hhome
  past := hpast
  unused v hv := by
    by_cases hvc : v = c.id
    · subst hvc
      have hsome : (L.speak cfg.rules m.word).cur c.id = some c.holding := hhear
      rw [hsome] at hv
      cases hv
    · refine hunused v hvc (hM.unused v ?_)
      rw [← hv]
      exact (Ledger.speak_cur_of_ne (hsubject ▸ Ne.symm hvc)).symm
  nodup := by rw [hclients]; exact (hM.put hput hc [m]).1
  client := by rw [hclients]; exact (hM.put hput hc [m]).2
  message := by
    rw [hlinks]
    exact hM.act_message fun m' hm' => by rw [List.mem_singleton.mp hm']; exact hm

theorem Net.pop_link_self : (s.pop x rest).link x = rest := Function.update_self ..

theorem Net.pop_link_of_ne {z : Side} (hz : z ≠ x) : (s.pop x rest).link z = s.link z :=
  Function.update_of_ne hz ..

/-- A message arrives. -/
theorem Models.arrive (hM : Models cfg s L) (hlink : s.link x = m :: rest) :
    Models cfg (s.pop x rest) (L.arrive cfg.rules x m.word (rest.map Message.word)) where
  view := hM.view
  link z := by
    by_cases hz : z = x
    · subst hz
      rw [Ledger.arrive_link_self, Net.pop_link_self]
    · rw [Ledger.arrive_link_of_ne hz, Net.pop_link_of_ne hz]
      exact hM.link z
  past := hM.past
  unused := hM.unused
  nodup := hM.nodup
  client := hM.client
  message z m' hm' := by
    by_cases hz : z = x
    · subst hz
      rw [Net.pop_link_self] at hm'
      exact hM.message z m' (by rw [hlink]; exact List.mem_cons_of_mem _ hm')
    · rw [Net.pop_link_of_ne hz] at hm'
      exact hM.message z m' hm'

/-- A server writes what it has for a user of its peer. -/
theorem Models.note (hM : Models cfg s L) (hput : Put (s.clients x) l c) (hc : ClientOk cfg x c)
    (haway : cfg.home c.id ≠ x) : Models cfg (s.act x l []) (L.note c.id c.holding) where
  view z v := by
    by_cases hz : z = x
    · subst hz
      rw [Ledger.view_note haway, Net.act_clients_self, hput.held, hM.view]
    · have hhome : cfg.home c.id = z :=
        (Side.eq_other_of_ne haway).trans (Side.eq_other_of_ne hz).symm
      rw [Ledger.view_note_at_home hhome, Net.act_clients_of_ne _ hz]
      exact hM.view z v
  link z := by
    by_cases hz : z = x
    · subst hz
      rw [Net.act_link_self, List.append_nil]
      exact hM.link z
    · rw [Net.act_link_of_ne _ hz]
      exact hM.link z
  past := hM.past
  unused := hM.unused
  nodup := (hM.put hput hc []).1
  client := (hM.put hput hc []).2
  message := hM.act_message fun m' hm' => absurd hm' List.not_mem_nil

/-- A server tells its peer. -/
theorem Models.tell (hM : Models cfg s L) :
    Models cfg (s.act x (s.clients x) [.save u t]) (L.tell x u t) where
  view z v := by
    have hsame : (s.act x (s.clients x) [.save u t]).clients = s.clients :=
      Function.update_eq_self x s.clients
    rw [hsame]
    exact hM.view z v
  link := hM.act_link (.save u t) Ledger.tell_link_self fun z hz => Ledger.tell_link_of_ne hz
  past := hM.past
  unused := hM.unused
  nodup z := by
    have hsame : (s.act x (s.clients x) [.save u t]).clients = s.clients :=
      Function.update_eq_self x s.clients
    rw [hsame]
    exact hM.nodup z
  client z d hd := by
    have hsame : (s.act x (s.clients x) [.save u t]).clients = s.clients :=
      Function.update_eq_self x s.clients
    rw [hsame] at hd
    exact hM.client z d hd
  message := hM.act_message fun m' hm' => by
    rw [List.mem_singleton.mp hm']
    exact trivial

end Follow

end Bluebox.Nick
