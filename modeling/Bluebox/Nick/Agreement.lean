/-
  Bluebox.Nick.Agreement

  Every step of the network is a move of the ledger as long as no user takes a
  time stamp twice, so the two servers agree when both links are empty.

  A saved user can take a time stamp twice, since saving resets it: then a
  `SAVE` that is still under way finds the new nick and takes it away without
  telling the peer.
-/
import Bluebox.Nick.Follow

namespace Bluebox.Nick

open Bluebox.Lib

section Steps

variable {cfg : Config} {s s' : Net} {L : Ledger Bytes Bytes Nat} {x : Side} {c d : Client}
  {nick u : Bytes} {now : Nat}

-- ============================================================================
-- What a server finds
-- ============================================================================

theorem Models.found (hM : Models cfg s L) (h : findId (s.clients x) u = some c) :
    L.view cfg.rules x u = some c.holding ∧ ClientOk cfg x c ∧ c.id = u := by
  obtain ⟨hmem, hid⟩ := findId_mem h
  refine ⟨?_, hM.client x c hmem, hid⟩
  rw [hM.view, held, h]
  rfl

theorem Models.view_named (hM : Models cfg s L) {v n : Bytes} {t : Nat}
    (h : L.view cfg.rules x v = some (.named n t)) :
    ∃ c, findId (s.clients x) v = some c ∧ c ∈ s.clients x ∧ IsNick c.name ∧ c.name = n ∧ c.tsinfo = t := by
  rw [hM.view] at h
  obtain ⟨c, hc, hholding⟩ := Option.map_eq_some_iff.mp h
  obtain ⟨hmem, -⟩ := findId_mem hc
  rcases (hM.client x c hmem).saved_or_nick with ⟨heq, -⟩ | ⟨heq, -, hnick⟩
  · rw [heq] at hholding
    cases hholding
  · rw [heq] at hholding
    cases hholding
    exact ⟨c, hc, hmem, hnick, rfl, rfl⟩

theorem Models.free (hM : Models cfg s L) (hnick : IsNick nick)
    (h : findClient (s.clients x) nick = none) {v n : Bytes} {t : Nat}
    (hv : L.view cfg.rules x v = some (.named n t)) : cfg.rules.fold n ≠ cfg.rules.fold nick := by
  obtain ⟨c, -, hmem, hname, rfl, -⟩ := hM.view_named hv
  rw [Ne, fold_eq_iff hname hnick, irccmp_eq_zero_comm]
  exact findClient_none hnick h hmem

theorem Models.holder (hM : Models cfg s L) (hnick : IsNick nick)
    (h : findClient (s.clients x) nick = some c) :
    findId (s.clients x) c.id = some c ∧ ClientOk cfg x c ∧ IsNick c.name ∧
      L.view cfg.rules x c.id = some (.named c.name c.tsinfo) ∧
      cfg.rules.fold c.name = cfg.rules.fold nick := by
  obtain ⟨hmem, hcmp⟩ := findClient_some hnick h
  have hid := findId_of_mem (hM.nodup x) hmem
  have hok := hM.client x c hmem
  have hview := (hM.found hid).1
  rcases hok.saved_or_nick with ⟨-, -, hname, -⟩ | ⟨heq, -, hname⟩
  · rw [hname] at hcmp
    exact absurd hcmp (hok.irccmp_id hnick)
  · rw [heq] at hview
    exact ⟨hid, hok, hname, hview, (fold_eq_iff hname hnick).mpr ((irccmp_eq_zero_comm _ _).mp hcmp)⟩

-- ============================================================================
-- Users connect, change nick and are saved
-- ============================================================================

/-- Some ledger that keeps the invariant says what the network is. -/
def Follows (cfg : Config) (s : Net) : Prop := ∃ L, Inv cfg.rules L ∧ Models cfg s L

theorem Config.home_of_sid (cfg : Config) (h : u.take 3 = cfg.sid x) : cfg.home u = x := by
  unfold Config.home
  cases x with
  | a => exact if_pos h
  | b => exact if_neg fun ha => cfg.sid_ne (ha.symm.trans h)

theorem Models.past_claim (hM : Models cfg s L) {m : Message} {ts : Nat} (hsubject : m.word.subject = u)
    (hstamp : m.word.stamp = ts) (l : List Client) (v : Bytes) (t : Nat) :
    t ∈ (L.speak cfg.rules m.word).past v ↔ t ∈ ((s.act x l [m]).stamp u ts).past v := by
  unfold Ledger.speak Net.stamp
  dsimp only
  rw [hsubject, hstamp]
  by_cases hv : v = u
  · subst hv
    rw [Function.update_self, Function.update_self, List.mem_cons, List.mem_cons, hM.past]
    rfl
  · rw [Function.update_of_ne hv, Function.update_of_ne hv]
    exact hM.past v t

/-- A server saves one of its own users and says so. -/
theorem Models.speak_save (hM : Models cfg s L) (hfind : findId (s.clients x) c.id = some c)
    (hok : ClientOk cfg x c) (hhome : cfg.home c.id = x)
    (hcur : L.cur c.id = some (.named c.name c.tsinfo)) (hL : Inv cfg.rules L) :
    Models cfg (s.act x (setClient (s.clients x) { c with name := c.id, tsinfo := saveNickTs })
      [.save c.id c.tsinfo]) (L.speak cfg.rules (.save c.id c.tsinfo)) := by
  obtain ⟨hsaved, hholding⟩ := hok.to_saved
  refine hM.speak (m := .save c.id c.tsinfo) (c := { c with name := c.id, tsinfo := saveNickTs })
    (put_setClient hfind) hsaved trivial rfl hhome ?_ rfl rfl (fun v t => ?_) fun _ _ hpast => hpast
  · rw [hholding]
    exact hear_save c.id c.tsinfo _
  · -- the stamp was taken before
    have hpast := hL.past_cur c.id c.name c.tsinfo hcur
    show t ∈ (L.speak cfg.rules (.save c.id c.tsinfo)).past v ↔ t ∈ s.past v
    unfold Ledger.speak
    dsimp only
    by_cases hv : v = c.id
    · subst hv
      rw [show (Word.save c.id c.tsinfo : Word Bytes Bytes Nat).subject = c.id from rfl,
        Function.update_self, List.mem_cons, ← hM.past]
      exact ⟨fun h => h.elim (fun h => h ▸ hpast) id, Or.inr⟩
    · rw [show (Word.save c.id c.tsinfo : Word Bytes Bytes Nat).subject = c.id from rfl,
        Function.update_of_ne hv]
      exact hM.past v t

theorem follows_introduce (h : Follows cfg s) {arg : Bytes} {ts : Nat} (hts : ts ≠ 0)
    (hrun : s.run cfg now (.introduce x u arg ts) = some s') : Follows cfg s' := by
  obtain ⟨L, hL, hM⟩ := h
  unfold Net.run at hrun
  cases hnick : nickArg arg with
  | none =>
    simp only [hnick] at hrun
    cases hrun
  | some nick =>
    have hn := nickArg_isNick hnick
    simp only [hnick] at hrun
    split at hrun
    · rename_i hguard
      simp only [Bool.and_eq_true, beq_iff_eq, Option.isNone_iff_eq_none] at hguard
      obtain ⟨⟨⟨⟨hid, hsid⟩, -⟩, hnew⟩, hfree⟩ := hguard
      obtain rfl := Option.some.inj hrun
      have hhome : cfg.home u = x := cfg.home_of_sid hsid
      have hcur : L.cur u = none := by
        rw [← Ledger.view_home cfg.rules L hhome, hM.view, held, hnew]
        rfl
      have hok : ClientOk cfg x ⟨u, nick, ts, (cfg.ident u).1, (cfg.ident u).2, true⟩ :=
        ⟨hid, Or.inr hn, rfl, rfl, ⟨fun _ => hhome, fun _ => rfl⟩, hts⟩
      refine ⟨L.speak cfg.rules (.claim true u nick ts), hL.claim ?_ ?_ ?_ ?_, ?_⟩
      · exact ⟨fun _ => hcur, fun _ => rfl⟩
      · intro v _ n' t' hv
        rw [show cfg.rules.home u = x from hhome] at hv
        exact hM.free hn hfree hv
      · intro n₀ t₀ hn₀
        rw [hcur] at hn₀
        cases hn₀
      · intro hpast
        rw [hM.past, hM.unused u hcur] at hpast
        exact absurd hpast List.not_mem_nil
      · refine hM.speak (m := .uid ⟨nick, ts, (cfg.ident u).1, (cfg.ident u).2, u⟩) (put_cons hnew) hok
          ⟨hid, hn, hts, rfl, rfl⟩ rfl hhome ?_ rfl rfl (hM.past_claim rfl rfl _) ?_
        · rw [(hok.to_nick hn hts).2]
          exact hear_claim true u nick ts _
        · intro v hv hpast
          exact (Function.update_of_ne hv ..).trans hpast
    · cases hrun

/-- `m_nick` goes on when nobody else has the nick. -/
theorem mNick_eq_some {l : List Client} {arg : Bytes} (h : mNick l c arg now = some d) :
    ∃ nick, nickArg arg = some nick ∧ d = changeLocalNick c nick now ∧
      (findClient l nick = none ∨ ∃ e, findClient l nick = some e ∧ e.id = c.id) := by
  unfold mNick at h
  cases hnick : nickArg arg with
  | none =>
    simp only [hnick] at h
    cases h
  | some nick =>
    simp only [hnick] at h
    cases hfind : findClient l nick with
    | none =>
      simp only [hfind] at h
      exact ⟨nick, rfl, (Option.some.inj h).symm, Or.inl hfind⟩
    | some e =>
      simp only [hfind] at h
      split at h
      · rename_i hcond
        exact ⟨nick, rfl, (Option.some.inj h).symm, Or.inr ⟨e, hfind, hcond.1⟩⟩
      · cases h

/-- The nick is free for the user: nobody has it, or the user itself. -/
theorem Models.free_for (hL : Inv cfg.rules L) (hM : Models cfg s L) (hnick : IsNick nick)
    (h : findClient (s.clients x) nick = none ∨
      ∃ e, findClient (s.clients x) nick = some e ∧ e.id = u) (v : Bytes) (hv : v ≠ u) (n : Bytes)
    (t : Nat) (hview : L.view cfg.rules x v = some (.named n t)) :
    cfg.rules.fold n ≠ cfg.rules.fold nick := by
  rcases h with hnone | ⟨e, he, rfl⟩
  · exact hM.free hnick hnone hview
  · obtain ⟨-, -, -, heview, hfold⟩ := hM.holder hnick he
    exact fun heq => hv (hL.unique x v e.id n t e.name e.tsinfo hview heview (heq.trans hfold.symm))

theorem follows_nick (h : Follows cfg s) {arg : Bytes}
    (hfresh : ∀ c nick, findId (s.clients x) u = some c → nickArg arg = some nick →
      irccmp c.name nick ≠ 0 → max now (c.tsinfo + 1) ∉ s.past u)
    (hrun : s.run cfg now (.nick x u arg) = some s') : Follows cfg s' := by
  have hfollows := h
  obtain ⟨L, hL, hM⟩ := h
  unfold Net.run at hrun
  cases hfind : findId (s.clients x) u with
  | none =>
    simp only [hfind] at hrun
    cases hrun
  | some c =>
    simp only [hfind] at hrun
    obtain ⟨hview, hok, hid⟩ := hM.found hfind
    split at hrun
    · rename_i hmy
      have hhome : cfg.home u = x := hid ▸ hok.myClient.mp hmy
      have hcur : L.cur u = some c.holding := (Ledger.view_home cfg.rules L hhome).symm.trans hview
      split at hrun
      · obtain rfl := Option.some.inj hrun
        exact hfollows
      · rename_i c' hc'
        obtain rfl := Option.some.inj hrun
        obtain ⟨nick, hnick, rfl, hfree⟩ := mNick_eq_some hc'
        have hn := nickArg_isNick hnick
        rw [hid] at hfree
        -- the new stamp goes with the old one only in a change of case
        obtain ⟨ts, hts, hts0, hcase⟩ : ∃ ts, changeLocalNick c nick now
            = { c with name := nick, tsinfo := ts } ∧ ts ≠ 0 ∧
            (irccmp c.name nick = 0 ∧ ts = c.tsinfo ∨ irccmp c.name nick ≠ 0 ∧ ts ∉ s.past u) := by
          by_cases hsame : irccmp c.name nick = 0
          · refine ⟨c.tsinfo, ?_, hok.tsinfo, Or.inl ⟨hsame, rfl⟩⟩
            rw [changeLocalNick, if_pos hsame]
          · refine ⟨max now (c.tsinfo + 1), ?_, by omega,
              Or.inr ⟨hsame, hfresh c nick hfind hnick hsame⟩⟩
            rw [changeLocalNick, if_neg hsame]
            congr 1
            split
            · omega
            · omega
        rw [hts]
        obtain ⟨hok', hholding⟩ := hok.to_nick hn hts0
        refine ⟨L.speak cfg.rules (.claim false u nick ts), hL.claim ?_ ?_ ?_ ?_, ?_⟩
        · rw [hcur]
          exact ⟨fun h => absurd h Bool.false_ne_true, fun h => by cases h⟩
        · rw [show cfg.rules.home u = x from hhome]
          exact hM.free_for hL hn hfree
        · intro n₀ t₀ hn₀ hfold
          rw [hcur] at hn₀
          rcases hok.saved_or_nick with ⟨heq, -⟩ | ⟨heq, -, hname⟩
          · rw [heq] at hn₀
            cases hn₀
          · rw [heq] at hn₀
            cases hn₀
            rcases hcase with ⟨-, hsame⟩ | ⟨hne, -⟩
            · exact hsame.symm
            · exact absurd ((fold_eq_iff hname hn).mp hfold) hne
        · intro hpast
          rw [hM.past] at hpast
          rcases hcase with ⟨hsame, rfl⟩ | ⟨-, hnot⟩
          · rcases hok.saved_or_nick with ⟨-, -, hname, -⟩ | ⟨heq, -, hname⟩
            · rw [hname, irccmp_eq_zero_comm] at hsame
              exact absurd hsame (hok.irccmp_id hn)
            · exact ⟨c.name, hcur.trans (by rw [heq]), (fold_eq_iff hname hn).mpr hsame⟩
          · exact absurd hpast hnot
        · refine hM.speak (m := .nick u nick ts) (c := { c with name := nick, tsinfo := ts })
            (put_setClient (hid ▸ hfind)) hok' ⟨hn, hts0⟩ hid.symm (hid ▸ hhome) ?_ rfl rfl
            (hM.past_claim rfl rfl _) ?_
          · rw [hholding, show Client.id { c with name := nick, tsinfo := ts } = u from hid]
            exact hear_claim false u nick ts _
          · intro v hv hpast
            rw [show Client.id { c with name := nick, tsinfo := ts } = u from hid] at hv
            exact (Function.update_of_ne hv ..).trans hpast
    · cases hrun

theorem follows_save (h : Follows cfg s) (hrun : s.run cfg now (.save x u) = some s') :
    Follows cfg s' := by
  obtain ⟨L, hL, hM⟩ := h
  unfold Net.run at hrun
  cases hfind : findId (s.clients x) u with
  | none =>
    simp only [hfind] at hrun
    cases hrun
  | some c =>
    simp only [hfind] at hrun
    obtain ⟨hview, hok, rfl⟩ := hM.found hfind
    split at hrun
    · rename_i hguard
      rw [Bool.and_eq_true, Bool.not_eq_true'] at hguard
      obtain rfl := Option.some.inj hrun
      have hhome : cfg.home c.id = x := hok.myClient.mp hguard.1
      rcases hok.saved_or_nick with ⟨-, hdigit, -⟩ | ⟨heq, -, hname⟩
      · exact absurd (hdigit.symm.trans hguard.2) (by decide)
      · have hcur : L.cur c.id = some (.named c.name c.tsinfo) := by
          rw [← Ledger.view_home cfg.rules L hhome, hview, heq]
        refine ⟨L.speak cfg.rules (.save c.id c.tsinfo), hL.save hcur, ?_⟩
        rw [hok.saveUser_eq hname]
        exact hM.speak_save hfind hok hhome hcur hL
    · cases hrun

-- ============================================================================
-- A claim arrives
-- ============================================================================

theorem Net.act_act (s : Net) (x : Side) (l l' : List Client) (out out' : List Message) :
    (s.act x l out).act x l' out' = s.act x l' (out ++ out') := by
  unfold Net.act
  simp [List.append_assoc]

theorem Net.act_pop (s : Net) (x : Side) (l : List Client) (out rest : List Message) :
    (s.act x.other l out).pop x rest = (s.pop x rest).act x.other l out := by
  have hne : x.other ≠ x := Side.other_ne x
  unfold Net.act Net.pop
  dsimp only
  rw [Function.update_of_ne hne, Function.update_comm hne]

section Claims

variable {m : Message} {rest : List Message} {new : Bool} {n : Bytes} {t : Nat} {l : List Client}
  (hM : Models cfg s L) (hlink : s.link x = m :: rest) (hword : m.word = .claim new u n t)
  (hL : Inv cfg.rules L)

include hM hlink hword

theorem Models.link_claim : L.link x = .claim new u n t :: rest.map Message.word := by
  rw [hM.link, hlink, List.map_cons, hword]

include hL

theorem Models.claim_away : cfg.home u ≠ x.other := by
  have hhome : cfg.home u = x :=
    hL.toCore.claim_home (by rw [hM.link_claim hlink hword]; exact List.mem_cons_self)
  rw [hhome]
  exact Ne.symm (Side.other_ne x)

/-- The nick is free for the user. -/
theorem follows_accept (hput : Put (s.clients x.other) l c) (hok : ClientOk cfg x.other c)
    (hid : c.id = u) (hholding : c.holding = .named n t)
    (hfree : ∀ v, v ≠ u → ∀ n' t', L.view cfg.rules x.other v = some (.named n' t') →
      cfg.rules.fold n' ≠ cfg.rules.fold n) : Follows cfg ((s.pop x rest).act x.other l []) := by
  have haway := hM.claim_away hlink hword hL
  refine ⟨_, hL.accept (hM.link_claim hlink hword) hfree, ?_⟩
  have harrive := hM.arrive hlink
  rw [hword] at harrive
  have hnote := harrive.note hput hok (hid ▸ haway)
  rwa [hid, hholding] at hnote

variable (hn : IsNick n) {e : Client} (he : findClient (s.clients x.other) n = some e)
  (hne : e.id ≠ u)

include hn he hne

theorem Models.collision : cfg.home e.id = x.other ∧ L.cur e.id = some (.named e.name e.tsinfo) ∧
    cfg.rules.fold e.name = cfg.rules.fold n := by
  obtain ⟨-, -, -, hview, hfold⟩ := hM.holder hn he
  obtain ⟨hhome, hcur⟩ := hL.holder_home (hM.link_claim hlink hword) hne hview hfold
  exact ⟨hhome, hcur, hfold⟩

/-- The arriving claim loses. -/
theorem follows_first (hput : Put (s.clients x.other) l c) (hok : ClientOk cfg x.other c)
    (hid : c.id = u) (hholding : c.holding = .saved)
    (hloser : cfg.loser u t e.id e.tsinfo = .first) :
    Follows cfg ((s.pop x rest).act x.other l [.save u t]) := by
  have haway := hM.claim_away hlink hword hL
  obtain ⟨hhome, hcur, hfold⟩ := hM.collision hlink hword hL hn he hne
  refine ⟨_, hL.collide_first (hM.link_claim hlink hword) hhome hcur hfold hloser, ?_⟩
  have harrive := hM.arrive hlink
  rw [hword] at harrive
  have hnote := harrive.note hput hok (hid ▸ haway)
  rw [hid, hholding] at hnote
  have htell := @Models.tell cfg _ _ x.other u t hnote
  rwa [Net.act_clients_self, Net.act_act] at htell

/-- The servers after the holder was saved, when the message is taken off the
    link. -/
theorem Models.saved_arrive : Models cfg
    ((s.pop x rest).act x.other (setClient (s.clients x.other) (saveUser e now))
      [.save e.id e.tsinfo])
    ((L.speak cfg.rules (.save e.id e.tsinfo)).arrive cfg.rules x (.claim new u n t)
      (rest.map Message.word)) := by
  obtain ⟨hhome, hcur, -⟩ := hM.collision hlink hword hL hn he hne
  obtain ⟨hfind, hok, hname, -⟩ := hM.holder hn he
  rw [hok.saveUser_eq hname]
  have hsaved := hM.speak_save hfind hok hhome hcur hL
  have hlink' : (s.act x.other (setClient (s.clients x.other)
      { e with name := e.id, tsinfo := saveNickTs }) [.save e.id e.tsinfo]).link x = m :: rest := by
    rw [Net.act_link_of_ne _ (Ne.symm (Side.other_ne x)), hlink]
  have harrive := hsaved.arrive hlink'
  rwa [hword, Net.act_pop] at harrive

/-- The servers when the user of the message is written, too. -/
theorem Models.saved_note
    (hput : Put (setClient (s.clients x.other) (saveUser e now)) l c)
    (hok : ClientOk cfg x.other c) (hid : c.id = u) : Models cfg
    ((s.pop x rest).act x.other l [.save e.id e.tsinfo])
    (((L.speak cfg.rules (.save e.id e.tsinfo)).arrive cfg.rules x (.claim new u n t)
      (rest.map Message.word)).note u c.holding) := by
  have harrive := @Models.saved_arrive cfg s L x u now m rest new n t hM hlink hword hL hn e he hne
  have hput' : Put (((s.pop x rest).act x.other (setClient (s.clients x.other) (saveUser e now))
      [.save e.id e.tsinfo]).clients x.other) l c := by
    rw [Net.act_clients_self]
    exact hput
  have hnote := harrive.note hput' hok (hid ▸ hM.claim_away hlink hword hL)
  rwa [hid, Net.act_act] at hnote

/-- The holder loses, and is saved. -/
theorem follows_second
    (hput : Put (setClient (s.clients x.other) (saveUser e now)) l c)
    (hok : ClientOk cfg x.other c) (hid : c.id = u) (hholding : c.holding = .named n t) :
    Follows cfg ((s.pop x rest).act x.other l [.save e.id e.tsinfo]) := by
  obtain ⟨hhome, hcur, hfold⟩ := hM.collision hlink hword hL hn he hne
  have hnote := hM.saved_note hlink hword hL hn he hne hput hok hid
  rw [hholding] at hnote
  exact ⟨_, hL.collide_second (hM.link_claim hlink hword) hhome hcur hfold, hnote⟩

/-- Both lose. -/
theorem follows_both
    (hput : Put (setClient (s.clients x.other) (saveUser e now)) l c)
    (hok : ClientOk cfg x.other c) (hid : c.id = u) (hholding : c.holding = .saved)
    (hloser : cfg.loser u t e.id e.tsinfo = .both) :
    Follows cfg ((s.pop x rest).act x.other l [.save e.id e.tsinfo, .save u t]) := by
  obtain ⟨hhome, hcur, hfold⟩ := hM.collision hlink hword hL hn he hne
  have hnote := hM.saved_note hlink hword hL hn he hne hput hok hid
  rw [hholding] at hnote
  have htell := @Models.tell cfg _ _ x.other u t hnote
  rw [Net.act_clients_self, Net.act_act] at htell
  exact ⟨_, hL.collide_both (hM.link_claim hlink hword) hhome hcur hfold hloser, htell⟩

end Claims

-- ============================================================================
-- The three messages
-- ============================================================================

/-- What a server heard first of a user it did not have before. -/
theorem Models.legal (hL : Inv cfg.rules L) (hM : Models cfg s L) {m : Message}
    {rest : List Message} (hlink : s.link x = m :: rest) :
    Legal cfg.rules x L.told m.word := by
  have hlegal := (hL.stream x).legal
  rw [hM.link, hlink] at hlegal
  exact hlegal.head

theorem strlcpy_ident (cfg : Config) (u : Bytes) :
    strlcpy (cfg.ident u).1 (userLen + 1) = (cfg.ident u).1 ∧
      strlcpy (cfg.ident u).2 (hostLen + 1) = (cfg.ident u).2 := by
  obtain ⟨huser, hhost⟩ := cfg.ident_clean u
  simp only [cleanUsername, cleanHost, Bool.and_eq_true, decide_eq_true_eq] at huser hhost
  exact ⟨strlcpy_of_lt (by omega), strlcpy_of_lt (by omega)⟩

/-- The verdict of the code on a collision is that of the rules. -/
theorem loser_of_tie {w : Bytes} {t t' : Nat} (h : t = 0 ∨ t' = 0 ∨ t = t') :
    cfg.loser u t w t' = .both := if_pos h

theorem loser_of_loses {w : Bytes} {t t' : Nat} (h : ¬ (t = 0 ∨ t' = 0 ∨ t = t'))
    (hloses : newLoses (cfg.sameuser u w) t t' = true) : cfg.loser u t w t' = .first := by
  rw [Config.loser, if_neg h, if_pos hloses]

theorem follows_uid (hL : Inv cfg.rules L) (hM : Models cfg s L) {i : Intro} {rest : List Message}
    (hlink : s.link x = .uid i :: rest) {l : List Client} {out : List Message}
    (h : msUid (s.clients x.other) i now = some (l, out)) :
    Follows cfg ((s.pop x rest).act x.other l out) := by
  obtain ⟨hid, hn, hts, huser, hhost⟩ := hM.message x _ (by rw [hlink]; exact List.mem_cons_self)
  have haway : cfg.home i.id ≠ x.other := hM.claim_away hlink rfl hL
  -- the user is new to the server
  have hnew : findId (s.clients x.other) i.id = none := by
    have htold : L.told i.id = none := (hM.legal hL hlink).2.1.mp rfl
    have hseen : L.seen i.id = none := by
      rcases hL.seen i.id with heq | ⟨-, n, t, hn, -⟩
      · rw [heq, htold]
      · rw [htold] at hn
        cases hn
    rw [← Ledger.view_away cfg.rules L haway, hM.view] at hseen
    exact Option.map_eq_none_iff.mp hseen
  have hidents := strlcpy_ident cfg i.id
  have hbase : ClientOk cfg x.other
      ⟨i.id, i.nick, i.ts, strlcpy i.username (userLen + 1), strlcpy i.host (hostLen + 1), false⟩ := by
    refine ⟨hid, Or.inr hn, ?_, ?_, ⟨fun h => absurd h Bool.false_ne_true, fun h => absurd h haway⟩, hts⟩
    · rw [huser]
      exact hidents.1
    · rw [hhost]
      exact hidents.2
  obtain ⟨hsaved, hsavedHolding⟩ := hbase.to_saved
  have hnamed := (hbase.to_nick hn hts).2
  unfold msUid at h
  split at h
  · split at h
    · rename_i hfree
      cases h
      exact follows_accept hM hlink rfl hL (put_cons hnew) hbase rfl hnamed
        fun v _ n' t' => hM.free hn hfree
    · rename_i e he
      obtain ⟨hfind, heok, -⟩ := hM.holder hn he
      have hne : e.id ≠ i.id := fun heq => by
        rw [heq, hnew] at hfind
        cases hfind
      have hnew' : findId (setClient (s.clients x.other) (saveUser e now)) i.id = none := by
        rw [findId_setClient, hnew]
        split
        · rfl
        · rfl
      have hsame : (irccmp e.username i.username == 0 && irccmp e.host i.host == 0)
          = cfg.sameuser i.id e.id := by
        rw [Config.sameuser, heok.username, heok.host, huser, hhost]
      unfold performNickCollides at h
      rw [hsame] at h
      dsimp only at h
      split at h
      · rename_i htie
        cases h
        exact follows_both hM hlink rfl hL hn he hne (put_cons hnew') hsaved rfl hsavedHolding
          (loser_of_tie htie)
      · rename_i htie
        split at h
        · rename_i hloses
          cases h
          exact follows_first hM hlink rfl hL hn he hne (put_cons hnew) hsaved rfl hsavedHolding
            (loser_of_loses htie hloses)
        · cases h
          exact follows_second hM hlink rfl hL hn he hne (put_cons hnew') hbase rfl hnamed
  · cases h

/-- A client that lost its nick has its ID. -/
theorem ClientOk.put_loseNick (hc : ClientOk cfg x c) {l : List Client}
    (hfind : findId l c.id = some c) (now : Nat) :
    ∃ d, Put l (loseNick l c now) d ∧ ClientOk cfg x d ∧ d.id = c.id ∧ d.holding = .saved := by
  unfold loseNick
  rcases hc.saved_or_nick with ⟨heq, hdigit, -⟩ | ⟨-, hdigit, hname⟩
  · rw [if_pos hdigit]
    exact ⟨c, put_self hfind, hc, rfl, heq⟩
  · obtain ⟨hsaved, hholding⟩ := hc.to_saved
    rw [hdigit, if_neg Bool.false_ne_true, hc.loseNick_eq hname]
    exact ⟨_, put_setClient hfind, hsaved, rfl, hholding⟩

/-- A nick that another user has is not one's own in another case. -/
theorem Models.irccmp_of_holder (hM : Models cfg s L) (hL : Inv cfg.rules L) {n : Bytes}
    (hn : IsNick n) (hfind : findId (s.clients x) c.id = some c)
    (hd : findClient (s.clients x) n = some d) (hne : d.id ≠ c.id) : irccmp c.name n ≠ 0 := by
  intro hsame
  obtain ⟨hview, hok, -⟩ := hM.found hfind
  obtain ⟨-, -, -, hdview, hdfold⟩ := hM.holder hn hd
  rcases hok.saved_or_nick with ⟨-, -, hname, -⟩ | ⟨heq, -, hname⟩
  · rw [hname, irccmp_eq_zero_comm] at hsame
    exact hok.irccmp_id hn hsame
  · rw [heq] at hview
    exact hne (hL.unique x d.id c.id _ _ _ _ hdview hview
      (hdfold.trans ((fold_eq_iff hname hn).mpr hsame).symm))

theorem follows_nickMessage (hL : Inv cfg.rules L) (hM : Models cfg s L) {n : Bytes} {ts : Nat}
    {rest : List Message} (hlink : s.link x = .nick u n ts :: rest)
    (hfind : findId (s.clients x.other) u = some c) {l : List Client} {out : List Message}
    (h : mcNick (s.clients x.other) c n ts now = some (l, out)) :
    Follows cfg ((s.pop x rest).act x.other l out) := by
  obtain ⟨hn, hts⟩ := hM.message x _ (by rw [hlink]; exact List.mem_cons_self)
  have haway : cfg.home u ≠ x.other := hM.claim_away hlink rfl hL
  obtain ⟨hview, hok, rfl⟩ := hM.found hfind
  obtain ⟨hok', hholding⟩ := hok.to_nick hn hts
  unfold mcNick at h
  split at h
  · split at h
    · -- nobody has the nick
      rename_i hfree
      cases h
      have hne : irccmp c.name n ≠ 0 := by
        rw [Ne, irccmp_eq_zero_comm]
        exact findClient_none hn hfree (findId_mem hfind).1
      have hchange : changeRemoteNick c ts n now = { c with name := n, tsinfo := ts } := by
        rw [changeRemoteNick, if_neg hne, if_pos hts]
      rw [hchange]
      exact follows_accept hM hlink rfl hL (put_setClient hfind) hok' rfl hholding
        fun v _ n' t' => hM.free hn hfree
    · rename_i e he
      split at h
      · -- the user has it in another case, and with the stamp it was told
        rename_i heid
        obtain ⟨hefind, -, hename, heview, hefold⟩ := hM.holder hn he
        rw [heid, hfind] at hefind
        obtain rfl := Option.some.inj hefind
        have hstamp : c.tsinfo = ts := by
          have hseen : L.seen c.id = some (.named c.name c.tsinfo) :=
            (Ledger.view_away cfg.rules L haway).symm.trans heview
          have htold : L.told c.id = some (.named c.name c.tsinfo) := by
            rcases hL.seen c.id with heq | ⟨hsaved, -⟩
            · rw [← heq, hseen]
            · rw [hsaved] at hseen
              cases hseen
          exact (hM.legal hL hlink).2.2 c.name c.tsinfo htold hefold
        have hfree := hM.free_for hL hn (Or.inr ⟨c, he, rfl⟩)
        split at h
        · cases h
          have hsame : irccmp c.name n = 0 := (fold_eq_iff hename hn).mp hefold
          have hchange : changeRemoteNick c ts n now = { c with name := n, tsinfo := ts } := by
            rw [changeRemoteNick, if_pos hsame, hstamp]
          rw [hchange]
          exact follows_accept hM hlink rfl hL (put_setClient hfind) hok' rfl hholding hfree
        · rename_i hname
          cases h
          have hc : c.holding = .named n ts := by
            rw [← Decidable.not_not.mp hname, ← hstamp]
            exact Option.some.inj (hview.symm.trans heview)
          exact follows_accept hM hlink rfl hL (put_self hfind) hok rfl hc hfree
      · rename_i hne
        obtain ⟨-, heok, hename, -⟩ := hM.holder hn he
        have hsame : (irccmp e.username c.username == 0 && irccmp e.host c.host == 0)
            = cfg.sameuser c.id e.id := by
          rw [Config.sameuser, heok.username, heok.host, hok.username, hok.host]
        have hfind' : findId (setClient (s.clients x.other) (saveUser e now)) c.id = some c := by
          rw [findId_setClient, if_neg, hfind]
          rw [heok.saveUser_eq hename]
          exact Ne.symm hne
        unfold performNickchangeCollides at h
        rw [hsame] at h
        dsimp only at h
        split at h
        · rename_i htie
          cases h
          obtain ⟨d, hput, hd, hdid, hdsaved⟩ := hok.put_loseNick hfind' now
          exact follows_both hM hlink rfl hL hn he hne hput hd hdid hdsaved (loser_of_tie htie)
        · rename_i htie
          split at h
          · rename_i hloses
            cases h
            obtain ⟨d, hput, hd, hdid, hdsaved⟩ := hok.put_loseNick hfind now
            exact follows_first hM hlink rfl hL hn he hne hput hd hdid hdsaved
              (loser_of_loses htie hloses)
          · cases h
            have hcmp : irccmp c.name n ≠ 0 := hM.irccmp_of_holder hL hn hfind he hne
            have hchange : changeRemoteNick c ts n now = { c with name := n, tsinfo := ts } := by
              rw [changeRemoteNick, if_neg hcmp, if_pos hts]
            rw [hchange]
            exact follows_second hM hlink rfl hL hn he hne (put_setClient hfind') hok' rfl hholding
  · cases h

theorem follows_saveMessage (hL : Inv cfg.rules L) (hM : Models cfg s L) {ts : Nat}
    {rest : List Message} (hlink : s.link x = .save u ts :: rest) (now : Nat) :
    Follows cfg ((s.pop x rest).act x.other (msSave (s.clients x.other) u ts now) []) := by
  have hlinkL : L.link x = .save u ts :: rest.map Message.word := by
    rw [hM.link, hlink]
    rfl
  have harrive := hM.arrive hlink
  have hsame : (s.pop x rest).act x.other (s.clients x.other) [] = s.pop x rest := by
    unfold Net.act
    rw [List.append_nil, Function.update_eq_self]
    exact congrArg (fun f => { s.pop x rest with clients := f }) (Function.update_eq_self x.other s.clients)
  by_cases hhome : cfg.home u = x
  · -- the home of the user saved it: it goes here, too
    have haway : cfg.home u ≠ x.other := by
      rw [hhome]
      exact Ne.symm (Side.other_ne x)
    obtain ⟨n, htold⟩ := hM.legal hL hlink hhome
    refine ⟨_, hL.save_heard hlinkL hhome, ?_⟩
    have hview : held (s.clients x.other) u = L.seen u := by
      rw [← hM.view, Ledger.view_away cfg.rules L haway]
    obtain ⟨c, hfind, hholding⟩ : ∃ c, findId (s.clients x.other) u = some c ∧
        (c.holding = .saved ∨ c.holding = .named n ts) := by
      rcases hL.seen u with heq | ⟨hsaved, -⟩
      · rw [heq, htold] at hview
        obtain ⟨c, hc, hh⟩ := Option.map_eq_some_iff.mp hview
        exact ⟨c, hc, Or.inr hh⟩
      · rw [hsaved] at hview
        obtain ⟨c, hc, hh⟩ := Option.map_eq_some_iff.mp hview
        exact ⟨c, hc, Or.inl hh⟩
    obtain ⟨-, hok, rfl⟩ := hM.found hfind
    have hput : ∃ d, Put (s.clients x.other) (msSave (s.clients x.other) c.id ts now) d ∧
        ClientOk cfg x.other d ∧ d.id = c.id ∧ d.holding = .saved := by
      unfold msSave
      rw [hfind]
      dsimp only
      rcases hok.saved_or_nick with ⟨heq, hdigit, -⟩ | ⟨heq, hdigit, hname⟩
      · rw [if_pos hdigit]
        exact ⟨c, put_self hfind, hok, rfl, heq⟩
      · have hts : c.tsinfo = ts := by
          rcases hholding with h | h
          · rw [heq] at h
            cases h
          · rw [heq] at h
            cases h
            rfl
        obtain ⟨hsaved, hsavedHolding⟩ := hok.to_saved
        rw [hdigit, if_neg Bool.false_ne_true, if_pos hts, hok.saveUser_eq hname]
        exact ⟨_, put_setClient hfind, hsaved, rfl, hsavedHolding⟩
    obtain ⟨d, hput, hdok, hdid, hdsaved⟩ := hput
    have hnote := harrive.note hput hdok (hdid ▸ haway)
    rwa [hdid, hdsaved] at hnote
  · -- it comes home and is too late
    refine ⟨_, hL.ignore_save hlinkL hhome, ?_⟩
    have hhome' : cfg.home u = x.other := Side.eq_other_of_ne hhome
    have hstay : msSave (s.clients x.other) u ts now = s.clients x.other := by
      unfold msSave
      cases hfind : findId (s.clients x.other) u with
      | none => rfl
      | some c =>
        dsimp only
        obtain ⟨hview, hok, rfl⟩ := hM.found hfind
        rcases hok.saved_or_nick with ⟨-, hdigit, -⟩ | ⟨heq, hdigit, -⟩
        · rw [if_pos hdigit]
        · rw [hdigit, if_neg Bool.false_ne_true, if_neg]
          rintro rfl
          refine hL.save_stale hlinkL hhome ⟨c.name, ?_⟩
          rw [← Ledger.view_home cfg.rules L hhome', hview, heq]
    rw [hstay, hsame]
    exact harrive

/-- What one step does. -/
theorem follows_deliver (h : Follows cfg s) (hrun : s.run cfg now (.deliver x) = some s') :
    Follows cfg s' := by
  obtain ⟨L, hL, hM⟩ := h
  unfold Net.run at hrun
  cases hlink : s.link x with
  | nil =>
    simp only [hlink] at hrun
    cases hrun
  | cons m rest =>
    simp only [hlink] at hrun
    cases hrec : receive (s.clients x.other) now m with
    | none =>
      simp only [hrec] at hrun
      cases hrun
    | some r =>
      obtain ⟨l, out⟩ := r
      simp only [hrec] at hrun
      obtain rfl := Option.some.inj hrun
      cases m with
      | uid i => exact follows_uid hL hM hlink hrec
      | nick source n ts =>
        unfold receive at hrec
        cases hfind : findId (s.clients x.other) source with
        | none =>
          simp only [hfind] at hrec
          cases hrec
        | some c =>
          simp only [hfind] at hrec
          split at hrec
          · cases hrec
          · exact follows_nickMessage hL hM hlink hfind hrec
      | save id ts =>
        cases hrec
        exact follows_saveMessage hL hM hlink now

/-- Nothing that is under way is answered with a `KILL`. -/
theorem receive_isSome (h : Follows cfg s) {m : Message} {rest : List Message}
    (hlink : s.link x = m :: rest) (now : Nat) : (receive (s.clients x.other) now m).isSome := by
  obtain ⟨L, hL, hM⟩ := h
  have hmessage := hM.message x m (by rw [hlink]; exact List.mem_cons_self)
  cases m with
  | uid i =>
    obtain ⟨hid, hn, -, huser, hhost⟩ := hmessage
    obtain ⟨hcuser, hchost⟩ := cfg.ident_clean i.id
    rw [← huser] at hcuser
    rw [← hhost] at hchost
    rw [receive, msUid, hn.facts.2.2.2, hcuser, hchost, hid]
    simp only [Bool.and_self, if_true]
    split
    · rfl
    · rfl
  | nick u n ts =>
    have haway : cfg.home u ≠ x.other := hM.claim_away hlink rfl hL
    have htold : L.told u ≠ none := fun h =>
      absurd ((hM.legal hL hlink).2.1.mpr h) Bool.false_ne_true
    have hseen : L.seen u ≠ none := by
      rcases hL.seen u with heq | ⟨hsaved, -⟩
      · rwa [heq]
      · rw [hsaved]
        exact Option.some_ne_none _
    rw [← Ledger.view_away cfg.rules L haway, hM.view, held, Ne, Option.map_eq_none_iff] at hseen
    obtain ⟨c, hfind⟩ := Option.ne_none_iff_exists'.mp hseen
    obtain ⟨-, hok, rfl⟩ := hM.found hfind
    have hmy : ¬ c.myClient = true := fun h => haway (hok.myClient.mp h)
    rw [receive, hfind]
    dsimp only
    rw [if_neg hmy, mcNick, if_pos hmessage.1.facts.2.2.2]
    repeat' split
    all_goals rfl
  | save id ts => rfl

end Steps

-- ============================================================================
-- Runs
-- ============================================================================

/-- A user takes a time stamp that is not 0 and that it did not have before, unless
    it only changes the case of its nick. -/
def Action.fresh (s : Net) (now : Nat) : Action → Bool
  | .introduce _ _ _ ts => ts != 0
  | .nick x id arg =>
    match findId (s.clients x) id, nickArg arg with
    | some c, some n => irccmp c.name n == 0 || !(s.past id).contains (max now (c.tsinfo + 1))
    | _, _ => true
  | _ => true

theorem follows_step {cfg : Config} {s s' : Net} {e : Nat × Action} (h : Follows cfg s)
    (hfresh : e.2.fresh s e.1 = true) (hstep : s.step cfg e = some s') : Follows cfg s' := by
  obtain ⟨now, a⟩ := e
  unfold Net.step at hstep
  split at hstep
  · obtain ⟨s₁, hrun, rfl⟩ := Option.map_eq_some_iff.mp hstep
    have hfollows : Follows cfg s₁ := by
      cases a with
      | introduce x id arg ts => exact follows_introduce h (by simpa [Action.fresh] using hfresh) hrun
      | nick x id arg =>
        refine follows_nick h (fun c n hc hn hne => ?_) hrun
        simpa [Action.fresh, hc, hn, hne] using hfresh
      | save x id => exact follows_save h hrun
      | deliver x => exact follows_deliver h hrun
    obtain ⟨L, hL, hM⟩ := hfollows
    exact ⟨L, hL, hM.view, hM.link, hM.past, hM.unused, hM.nodup, hM.client, hM.message⟩
  · cases hstep

theorem follows_start (cfg : Config) : Follows cfg Net.start := by
  refine ⟨Ledger.empty, Inv.empty, fun x u => ?_, fun _ => rfl, fun _ _ => Iff.rfl, fun _ _ => rfl,
    fun _ => List.nodup_nil, fun _ _ h => absurd h List.not_mem_nil,
    fun _ _ h => absurd h List.not_mem_nil⟩
  unfold Ledger.view
  exact ite_self _

/-- Two servers that have the same for a UID have the same nick and time stamp. -/
theorem ClientOk.eq_of_holding {cfg : Config} {x y : Side} {c d : Client} (hc : ClientOk cfg x c)
    (hd : ClientOk cfg y d) (hid : d.id = c.id) (h : d.holding = c.holding) :
    (c.name, c.tsinfo) = (d.name, d.tsinfo) := by
  rcases hc.saved_or_nick with ⟨hceq, -, hcname, hcts⟩ | ⟨hceq, -⟩
  · rcases hd.saved_or_nick with ⟨-, -, hdname, hdts⟩ | ⟨hdeq, -⟩
    · rw [hcname, hcts, hdname, hdts, hid]
    · rw [hdeq, hceq] at h
      cases h
  · rcases hd.saved_or_nick with ⟨hdeq, -⟩ | ⟨hdeq, -⟩
    · rw [hdeq, hceq] at h
      cases h
    · rw [hdeq, hceq] at h
      injection h with hname hts
      rw [hname, hts]

/-- In every run in which no user takes a time stamp twice, the servers agree on
    every nick and time stamp whenever both links are empty, and each nick is held
    by one user. -/
theorem nicks_agree_of_fresh_run {cfg : Config} {s : Net}
    (h : Reach (Net.step cfg) (fun s e => e.2.fresh s e.1 = true) Net.start s)
    (hempty : ∀ x, s.link x = []) : s.Agree ∧ ∀ x, NicksUnique (s.clients x) := by
  have hfollows := h.invariant (P := Follows cfg) (follows_start cfg)
    fun _ _ _ hs hfresh hstep => follows_step hs hfresh hstep
  obtain ⟨L, hL, hM⟩ := hfollows
  have hviews : ∀ u, held (s.clients .a) u = held (s.clients .b) u := by
    intro u
    have hseen := hL.agree (fun x => by rw [hM.link, hempty]; rfl) u
    rw [← hM.view, ← hM.view]
    unfold Ledger.view
    rw [hseen, ite_self, ite_self]
  refine ⟨fun u => ?_, fun x c hc d hd hsame => ?_⟩
  · have hu := hviews u
    unfold held at hu
    cases hc : findId (s.clients .a) u with
    | none =>
      rw [hc, Option.map_none, eq_comm, Option.map_eq_none_iff] at hu
      rw [hu]
    | some c =>
      rw [hc, Option.map_some, eq_comm] at hu
      obtain ⟨d, hd, hholding⟩ := Option.map_eq_some_iff.mp hu
      obtain ⟨-, hcok, rfl⟩ := hM.found hc
      obtain ⟨-, hdok, hid⟩ := hM.found hd
      rw [hd]
      exact congrArg some (hcok.eq_of_holding hdok hid hholding)
  · have hcok := hM.client x c hc
    have hdok := hM.client x d hd
    have hcview := (hM.found (findId_of_mem (hM.nodup x) hc)).1
    have hdview := (hM.found (findId_of_mem (hM.nodup x) hd)).1
    unfold sameNick at hsame
    rcases hcok.saved_or_nick with ⟨-, hdigit, hcname, -⟩ | ⟨hceq, hdigit, hcname⟩
    · rw [if_pos hdigit, beq_iff_eq] at hsame
      rw [hsame] at hdigit
      rcases hdok.saved_or_nick with ⟨-, -, hdname, -⟩ | ⟨-, hddigit, -⟩
      · rw [← hcname, hsame, hdname]
      · exact absurd (hdigit.symm.trans hddigit) (by decide)
    · rw [hdigit, if_neg Bool.false_ne_true, beq_iff_eq] at hsame
      rcases hdok.saved_or_nick with ⟨-, -, hdname, -⟩ | ⟨hdeq, -, hdname⟩
      · rw [hdname] at hsame
        exact absurd hsame (hdok.irccmp_id hcname)
      · rw [hceq] at hcview
        rw [hdeq] at hdview
        exact hL.unique x c.id d.id _ _ _ _ hcview hdview ((fold_eq_iff hcname hdname).mpr hsame)

-- ============================================================================
-- Concrete runs
-- ============================================================================

/-- The servers `0AA` and `1AA`, and different users on them. -/
def twoServers : Config where
  sid
    | .a => [48, 65, 65]
    | .b => [49, 65, 65]
  sid_ne := by decide
  ident id := ([if id.head? = some 48 then 117 else 118], [104])
  ident_clean id := by
    dsimp only
    split
    · decide
    · decide

/-- A user of the first server. -/
def userA : Bytes := [48, 65, 65, 65, 65, 65, 65, 65, 65]

/-- A user of the second server. -/
def userB : Bytes := [49, 65, 65, 65, 65, 65, 65, 65, 65]

/-- Both users take the nick `f`, and all messages arrive: the younger claim of
    the second user is saved by both servers.  Then it takes the nick `g`. -/
def collide (now : Nat) : List (Nat × Action) :=
  [(1002, .introduce .a userA [102] 1002), (1003, .introduce .b userB [102] 1003),
    (1003, .deliver .a), (1003, .deliver .b), (1003, .deliver .b), (now, .nick .b userB [103]),
    (now, .deliver .a), (now, .deliver .b)]

/-- The network afterwards. -/
def collided (now : Nat) : Net := (collide now).foldl (Reach.perform (Net.step twoServers)) Net.start

/-- A second later all is well. -/
theorem nicks_agree_after_collision :
    (collided 1004).Agree ∧ (∀ x, NicksUnique ((collided 1004).clients x)) ∧
    ((collided 1004).clients .a).map (fun c => (c.name, c.tsinfo)) = [([103], 1004), ([102], 1002)] := by
  have hempty : ∀ x, (collided 1004).link x = [] := by
    intro x
    cases x with
    | a => decide
    | b => decide
  have hreach : Reach (Net.step twoServers) (fun s e => e.2.fresh s e.1 = true) Net.start
      (collided 1004) := by
    unfold collided collide
    simp only [List.foldl_cons, List.foldl_nil]
    exact (((((((Reach.init.performed (by decide)).performed (by decide)).performed
      (by decide)).performed (by decide)).performed (by decide)).performed
      (by decide)).performed (by decide)).performed (by decide)
  obtain ⟨hagree, hunique⟩ := nicks_agree_of_fresh_run hreach hempty
  exact ⟨hagree, hunique, by decide⟩

/-- In the same second the user takes the time stamp it had before: the `SAVE` that
    is under way takes away the new nick, and only its own server knows. -/
theorem not_agree_after_reused_stamp :
    ¬ ∀ s, Reach (Net.step twoServers) anyStep Net.start s → (∀ x, s.link x = []) →
      s.Agree ∧ ∀ x, NicksUnique (s.clients x) := by
  intro h
  have hempty : ∀ x, (collided 1003).link x = [] := by
    intro x
    cases x with
    | a => decide
    | b => decide
  have hagree := (h (collided 1003) (Reach.performed_all _ .init) hempty).1 userB
  revert hagree
  decide

end Bluebox.Nick
