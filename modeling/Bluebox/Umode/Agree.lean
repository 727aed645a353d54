/-
  Bluebox.Umode.Agree

  A remote server holds the same `SEND_UMODES` for a user as the user's own server.

  The remote server knows a user by the text of `introduce_client` and by the texts of
  `send_umode_out`.  A text names the modes that have changed; the remote server goes
  through it letter by letter.  Halfway each mode is the old one or the new one, and one
  whose letter has been read is the new one.  `-o` takes `a` away too, which is right
  because a user that is no operator is no admin.
-/
import Bluebox.Umode.Count

namespace Bluebox.Umode

open Bluebox.Lib

-- ============================================================================
-- The remote server reads a letter
-- ============================================================================

/-- The letters of the modes that are sent: `o`, and those that only set or clear. -/
theorem sendUmodes_letter {e : UMode × UInt8} (he : e ∈ userModes) (hsend : sendUmodes e.1 = true)
    (hhelpop : e.1 ≠ .helpop) (hservice : e.1 ≠ .service) :
    e = (.oper, 111) ∨ e = (.crypthost, 120) ∨
    (userModeBitmask e.2 = some e.1 ∧ e.2 ≠ 43 ∧ e.2 ≠ 45 ∧ e.2 ≠ 111 ∧
      ¬ (e.2 = 83 ∨ e.2 = 32 ∨ e.2 = 10 ∨ e.2 = 13 ∨ e.2 = 9) ∧ e.2 ≠ 120 ∧ e.2 ≠ 104) := by
  have hall : userModes.all (fun e => !sendUmodes e.1 || e.1 == .helpop || e.1 == .service ||
      decide (e = (.oper, 111) ∨ e = (.crypthost, 120) ∨
        (userModeBitmask e.2 = some e.1 ∧ e.2 ≠ 43 ∧ e.2 ≠ 45 ∧ e.2 ≠ 111 ∧
          ¬ (e.2 = 83 ∨ e.2 = 32 ∨ e.2 = 10 ∨ e.2 = 13 ∨ e.2 = 9) ∧ e.2 ≠ 120 ∧ e.2 ≠ 104))) = true := by
    decide +kernel
  have hone := List.all_eq_true.mp hall e he
  rw [hsend, Bool.or_eq_true_iff, Bool.or_eq_true_iff, Bool.or_eq_true_iff, beq_iff_eq, beq_iff_eq,
    decide_eq_true_iff] at hone
  obtain ((h | h) | h) | h := hone
  · cases h
  · exact absurd h hhelpop
  · exact absurd h hservice
  · exact h

variable {p : Parse}

/-- A letter of a remote user sets or clears its mode; `-o` also clears `a`. -/
theorem remote_letter (cfg : Config) {e : UMode × UInt8} (he : e ∈ userModes) (hsend : sendUmodes e.1 = true)
    (hhelpop : e.1 ≠ .helpop) (hservice : e.1 ≠ .service) (hremote : p.client.myConnect = false) :
    (modeLetter cfg true p e.2).what = p.what ∧
    (modeLetter cfg true p e.2).client.myConnect = false ∧
    (modeLetter cfg true p e.2).client.umodes e.1 = (p.what == .add) ∧
    ∀ k, k ≠ e.1 → (modeLetter cfg true p e.2).client.umodes k = p.client.umodes k ∨
      (k = .admin ∧ e.1 = .oper ∧ p.what = .del ∧
        (modeLetter cfg true p e.2).client.umodes k = false) := by
  have hput : ∀ m, (p.putMode m).what = p.what ∧ (p.putMode m).client.myConnect = false ∧
      (p.putMode m).client.umodes m = (p.what == .add) ∧
      ∀ k, k ≠ m → (p.putMode m).client.umodes k = p.client.umodes k ∨
        (k = .admin ∧ m = .oper ∧ p.what = .del ∧ (p.putMode m).client.umodes k = false) := by
    intro m
    refine ⟨rfl, hremote, ?_, fun k hk => Or.inl (put_of_ne (u := p.client.umodes) hk p.what)⟩
    show p.client.umodes.put m p.what m = (p.what == .add)
    cases p.what with
    | add => exact put_add ..
    | del => exact put_del ..
  obtain rfl | rfl | ⟨hflag, h43, h45, h111, hspace, h120, h104⟩ :=
    sendUmodes_letter he hsend hhelpop hservice
  · unfold modeLetter
    rw [if_neg (by decide), if_neg (by decide), if_pos rfl]
    cases hwhat : p.what with
    | add =>
      dsimp only
      cases hoper : p.client.umodes .oper with
      | true =>
        rw [if_neg (by decide)]
        exact ⟨hwhat, hremote, hoper, fun k _ => Or.inl rfl⟩
      | false =>
        rw [if_pos (by decide)]
        obtain ⟨h1, h2, h3, h4⟩ := hput .oper
        rw [hwhat] at h1 h3 h4
        exact ⟨h1, h2, h3, h4⟩
    | del =>
      dsimp only
      cases hoper : p.client.umodes .oper with
      | true =>
        rw [if_pos rfl]
        have hdeop : p.client.deop cfg
            = { p.client with umodes := (p.client.umodes.put .oper .del).put .admin .del } := by
          unfold Client.deop
          dsimp only
          rw [if_neg (by rw [hremote]; exact Bool.false_ne_true)]
        rw [hdeop]
        refine ⟨rfl, hremote, ?_, fun k hk => ?_⟩
        · show (p.client.umodes.put .oper .del).put .admin .del .oper = false
          rw [put_of_ne UMode.noConfusion]
          exact put_del ..
        · by_cases hadmin : k = .admin
          · subst hadmin
            exact Or.inr ⟨rfl, rfl, rfl, put_del (p.client.umodes.put .oper .del) .admin⟩
          · refine Or.inl ?_
            show (p.client.umodes.put .oper .del).put .admin .del k = p.client.umodes k
            rw [put_of_ne hadmin, put_of_ne hk]
      | false =>
        rw [if_neg Bool.false_ne_true]
        exact ⟨hwhat, hremote, hoper, fun k _ => Or.inl rfl⟩
  · unfold modeLetter
    rw [if_neg (by decide), if_neg (by decide), if_neg (by decide), if_neg (by decide), if_pos rfl,
      if_neg (by rw [hremote]; exact Bool.false_ne_true)]
    exact hput .crypthost
  · unfold modeLetter
    rw [if_neg h43, if_neg h45, if_neg h111, if_neg hspace, if_neg h120, if_neg fun h => h104 h.1,
      hflag]
    dsimp only
    rw [if_neg (by rw [hremote]; exact Bool.false_ne_true)]
    exact hput e.1

-- ============================================================================
-- The remote server reads a text
-- ============================================================================

/-- Halfway through a text: each mode that is sent is as before or as after. -/
def Between (old new : Modes) (p : Parse) : Prop :=
  p.client.myConnect = false ∧
    ∀ m, sendUmodes m = true → p.client.umodes m = old m ∨ p.client.umodes m = new m

/-- The parser after some letters has the modes that it had right, and those of a list. -/
def Reaches (new : Modes) (p p' : Parse) (l : List (UMode × UInt8)) : Prop :=
  p'.client.myConnect = false ∧ ∀ m, sendUmodes m = true →
    (m ∈ l.map Prod.fst ∨ p.client.umodes m = new m) → p'.client.umodes m = new m

variable {old new : Modes}

/-- A change that the remote server can take over: no `h` and no `S`, and one who is no
    operator any more is no admin. -/
structure Sendable (old new : Modes) : Prop where
  old_helpop : old .helpop = false
  new_helpop : new .helpop = false
  old_service : old .service = false
  new_service : new .service = false
  admin : new .oper = false → new .admin = false

/-- The letter of a mode that has changed, with the right sign in force. -/
theorem Between.letter (cfg : Config) (hsendable : Sendable old new) {e : UMode × UInt8} (he : e ∈ userModes)
    (hsend : sendUmodes e.1 = true) (hchange : old e.1 ≠ new e.1) (h : Between old new p)
    (hwhat : (p.what == .add) = new e.1) :
    (modeLetter cfg true p e.2).what = p.what ∧ Between old new (modeLetter cfg true p e.2) ∧
      Reaches new p (modeLetter cfg true p e.2) [e] := by
  have hhelpop : e.1 ≠ .helpop := fun heq =>
    hchange (by rw [heq, hsendable.old_helpop, hsendable.new_helpop])
  have hservice : e.1 ≠ .service := fun heq =>
    hchange (by rw [heq, hsendable.old_service, hsendable.new_service])
  obtain ⟨hsame, hremote, hself, hothers⟩ := remote_letter cfg he hsend hhelpop hservice h.1
  -- `-o` clears `a` only where it is to be cleared
  have hclear : ∀ k, k = .admin ∧ e.1 = .oper ∧ p.what = .del ∧
      (modeLetter cfg true p e.2).client.umodes k = false →
      (modeLetter cfg true p e.2).client.umodes k = new k := by
    rintro k ⟨rfl, hoper, hdel, hfalse⟩
    rw [hdel, hoper] at hwhat
    rw [hfalse]
    exact (hsendable.admin hwhat.symm).symm
  refine ⟨hsame, ⟨hremote, fun m hm => ?_⟩, hremote, fun m hm hor => ?_⟩
  · by_cases heq : m = e.1
    · exact Or.inr (heq ▸ hself.trans hwhat)
    · obtain hkeep | hadmin := hothers m heq
      · rw [hkeep]
        exact h.2 m hm
      · exact Or.inr (hclear m hadmin)
  · by_cases heq : m = e.1
    · exact heq ▸ hself.trans hwhat
    · obtain hkeep | hadmin := hothers m heq
      · rw [hkeep]
        refine hor.resolve_left fun hmem => heq ?_
        rw [List.map_singleton, List.mem_singleton] at hmem
        exact hmem
      · exact hclear m hadmin

theorem Reaches.trans {p q r : Parse} {e : UMode × UInt8} {l : List (UMode × UInt8)}
    (h : Reaches new p q [e]) (h' : Reaches new q r l) : Reaches new p r (e :: l) := by
  refine ⟨h'.1, fun m hm hor => h'.2 m hm ?_⟩
  obtain hmem | heq := hor
  · rw [List.map_cons, List.mem_cons] at hmem
    obtain heq | hmem := hmem
    · refine Or.inr (h.2 m hm (Or.inl ?_))
      rw [List.map_singleton, heq]
      exact List.mem_singleton_self e.1
    · exact Or.inl hmem
  · exact Or.inr (h.2 m hm (Or.inr heq))

/-- The text of a change brings the remote server to the new modes.  By induction over
    the table; `what` is the last sign of the text. -/
theorem remote_text (cfg : Config) (hsendable : Sendable old new) (l : List (UMode × UInt8)) :
    ∀ {p : Parse} {what : Option What}, (∀ e ∈ l, e ∈ userModes) → Between old new p →
    (∀ w, what = some w → p.what = w) →
    Reaches new p ((umodeText true old new sendUmodes what l).foldl (modeLetter cfg true) p) l := by
  induction l with
  | nil =>
    intro p what _ h _
    exact ⟨h.1, fun m _ hor => hor.resolve_left List.not_mem_nil⟩
  | cons e l ih =>
    intro p what hsub h hwhat
    obtain ⟨he, hsub'⟩ := List.forall_mem_cons.mp hsub
    obtain ⟨flag, letter⟩ := e
    rw [umodeText]
    by_cases hsend : sendUmodes flag = true
    · rw [if_neg (by rw [hsend]; decide)]
      -- a letter under its sign, then the rest
      have hemit : ∀ w : What, old flag ≠ new flag → (w == .add) = new flag →
          Reaches new p ((umodeText true old new sendUmodes (some w) l).foldl (modeLetter cfg true)
            (modeLetter cfg true { p with what := w } letter)) ((flag, letter) :: l) := by
        intro w hchange hsign
        obtain ⟨hsame, hbetween, hreach⟩ := Between.letter (p := { p with what := w }) cfg hsendable he
          hsend hchange h hsign
        refine Reaches.trans (p := p) hreach (ih hsub' hbetween fun w' hw' => ?_)
        rw [hsame]
        exact Option.some.inj hw'
      -- a mode that has not changed
      have hskip : old flag = new flag → Reaches new p ((umodeText true old new sendUmodes what
          l).foldl (modeLetter cfg true) p) ((flag, letter) :: l) := by
        intro hsame
        obtain ⟨hremote, hreach⟩ := ih hsub' h hwhat
        refine ⟨hremote, fun m hm hor => hreach m hm ?_⟩
        rw [List.map_cons, List.mem_cons] at hor
        obtain (heq | hmem) | hright := hor
        · refine Or.inr ?_
          rw [heq]
          exact (h.2 flag hsend).elim (fun hbefore => hbefore.trans hsame) id
        · exact Or.inl hmem
        · exact Or.inr hright
      have hself : ∀ w, what = some w → ({ p with what := w } : Parse) = p := fun w hw => by
        rw [← hwhat w hw]
      cases hold : old flag with
      | true =>
        cases hnew : new flag with
        | true =>
          rw [if_neg (by decide), if_neg (by decide)]
          exact hskip (by rw [hold, hnew])
        | false =>
          rw [if_pos (by decide)]
          have hdel := hemit .del (by rw [hold, hnew]; decide) (by rw [hnew]; rfl)
          by_cases hsign : what = some .del
          · rw [if_pos hsign, List.foldl_cons, hsign]
            rw [hself .del hsign] at hdel
            exact hdel
          · rw [if_neg hsign]
            exact hdel
      | false =>
        cases hnew : new flag with
        | true =>
          rw [if_neg (by decide), if_pos (by decide)]
          have hadd := hemit .add (by rw [hold, hnew]; decide) (by rw [hnew]; rfl)
          by_cases hsign : what = some .add
          · rw [if_pos hsign, List.foldl_cons, hsign]
            rw [hself .add hsign] at hadd
            exact hadd
          · rw [if_neg hsign]
            exact hadd
        | false =>
          rw [if_neg (by decide), if_neg (by decide)]
          exact hskip (by rw [hold, hnew])
    · rw [if_pos (by rw [Bool.eq_false_iff.mpr hsend]; rfl)]
      obtain ⟨hremote, hreach⟩ := ih hsub' h hwhat
      refine ⟨hremote, fun m hm hor => hreach m hm (hor.imp_left fun hmem => ?_)⟩
      rw [List.map_cons, List.mem_cons] at hmem
      refine hmem.resolve_left fun heq => hsend ?_
      rw [heq] at hm
      exact hm

theorem mem_userModes (m : UMode) : m ∈ userModes.map Prod.fst := by
  cases m <;> decide

/-- The tests after the parser do nothing to the modes that are sent of a remote user. -/
theorem checkPrivs_remote {c : Client} (hremote : c.myConnect = false) {m : UMode}
    (hm : sendUmodes m = true) : (checkPrivs c).1.umodes m = c.umodes m := by
  unfold checkPrivs strip
  dsimp only
  have hadmin : (c.myConnect && (!c.isOperAdmin || c.operflags .hadmin)) = false := by
    rw [hremote]
    rfl
  rw [hadmin, Bool.and_false]
  show Client.umodes (Client.putIf _ _ .spamnotice _) m = _
  rw [(putIf_spec _ _ .spamnotice _).2 m (fun h => by rw [h] at hm; cases hm),
    (putIf_spec _ _ .nchange _).2 m (fun h => by rw [h] at hm; cases hm),
    (putIf_spec _ _ .operwall _).2 m (fun h => by rw [h] at hm; cases hm)]

theorem putIf_myConnect (c : Client) (b : Bool) (m : UMode) (what : What) :
    (c.putIf b m what).myConnect = c.myConnect := by
  cases b <;> rfl

theorem checkPrivs_myConnect (c : Client) : (checkPrivs c).1.myConnect = c.myConnect := by
  unfold checkPrivs strip
  dsimp only
  rw [putIf_myConnect, putIf_myConnect, putIf_myConnect, putIf_myConnect]

/-- What a remote server does with a text of `send_umode_out`. -/
def hear (cfg : Config) (n : Count) (r : Client) (text : Bytes) : Client :=
  if text = [] then r else (userMode cfg true r n [text]).1

/-- The remote server follows a change. -/
theorem hear_text (cfg : Config) (n : Count) {r : Client} (hremote : r.myConnect = false)
    (hsendable : Sendable old new) (hagree : ∀ m, sendUmodes m = true → r.umodes m = old m) :
    (hear cfg n r (umodeText true old new sendUmodes none userModes)).myConnect = false ∧
    ∀ m, sendUmodes m = true →
      (hear cfg n r (umodeText true old new sendUmodes none userModes)).umodes m = new m := by
  obtain ⟨hremote', hreach⟩ := remote_text (p := ⟨.add, r, n.oper, false⟩) cfg hsendable userModes
    (fun _ he => he) ⟨hremote, fun m hm => Or.inl (hagree m hm)⟩ (fun w (hw : none = some w) => by cases hw)
  unfold hear
  split
  · next hempty =>
    rw [hempty] at hreach
    exact ⟨hremote, fun m hm => hreach m hm (Or.inl (mem_userModes m))⟩
  · have hparse : parseModes cfg true r n [umodeText true old new sendUmodes none userModes]
        = (umodeText true old new sendUmodes none userModes).foldl (modeLetter cfg true)
          ⟨.add, r, n.oper, false⟩ := by
      unfold parseModes
      rw [List.flatten_cons, List.flatten_nil, List.append_nil]
    unfold userMode
    rw [if_neg (by exact List.cons_ne_nil _ _)]
    dsimp only
    rw [hparse]
    refine ⟨(checkPrivs_myConnect _).trans hremote', fun m hm => ?_⟩
    rw [checkPrivs_remote hremote' hm]
    exact hreach m hm (Or.inl (mem_userModes m))

-- ============================================================================
-- The user's own server
-- ============================================================================

/-- A local user; without `OPER` it has no admin flags. -/
structure Home (c : Client) : Prop where
  myConnect : c.myConnect = true
  flags : c.umodes .oper = false → c.operflags .admin = false ∧ c.operflags .hadmin = false

theorem Home.putMode {c : Client} (h : Home c) {m : UMode} (hm : m ≠ .oper) (what : What) :
    Home (c.putMode m what) := by
  refine ⟨h.myConnect, fun hoper => h.flags ?_⟩
  exact (put_of_ne (u := c.umodes) (Ne.symm hm) what).symm.trans hoper

theorem Home.putIf {c : Client} (h : Home c) (b : Bool) {m : UMode} (hm : m ≠ .oper) (what : What) :
    Home (c.putIf b m what) := by
  cases b with
  | true => exact h.putMode hm what
  | false => exact h

theorem Home.deop (cfg : Config) {c : Client} (h : Home c) : Home (c.deop cfg) := by
  have hdeop : c.deop cfg = { c with
      umodes := Modes.diff ((c.umodes.put .oper .del).put .admin .del) cfg.operOnlyUmodes
      operflags := fun f => c.operflags f && !operFlags f } := by
    unfold Client.deop
    dsimp only
    rw [if_pos h.myConnect]
  rw [hdeop]
  exact ⟨h.myConnect, fun _ => ⟨Bool.and_false _, Bool.and_false _⟩⟩

theorem Home.letter (cfg : Config) (h : Home p.client) (c : UInt8) :
    Home (modeLetter cfg false p c).client := by
  unfold modeLetter
  split
  · exact h
  split
  · exact h
  split
  · split
    · exact h
    · split
      · exact h.deop cfg
      · exact h
  · next hoper =>
    split
    · exact h
    split
    · split
      · exact h
      · exact h.putMode UMode.noConfusion _
    split
    · exact h
    split
    · next flag hflag =>
      split
      · exact h
      · exact h.putMode (fun heq => hoper (eq_of_userModeBitmask_oper (heq ▸ hflag))) _
    · split <;> exact h

theorem Home.foldl (cfg : Config) (letters : Bytes) : ∀ {p : Parse}, Home p.client →
    Home (letters.foldl (modeLetter cfg false) p).client := by
  induction letters with
  | nil => exact fun h => h
  | cons c letters ih => exact fun h => ih (h.letter cfg c)

/-- After `user_mode` one who is no operator is no admin. -/
theorem Home.checkPrivs {c : Client} (h : Home c) :
    Home (Umode.checkPrivs c).1 ∧
      ((Umode.checkPrivs c).1.umodes .oper = false → (Umode.checkPrivs c).1.umodes .admin = false) := by
  refine ⟨?_, fun hoper => ?_⟩
  · unfold Umode.checkPrivs strip
    dsimp only
    exact (((h.putIf _ UMode.noConfusion _).putIf _ UMode.noConfusion _).putIf _ UMode.noConfusion
      _).putIf _ UMode.noConfusion _
  · rw [(checkPrivs_spec c).2 .oper UMode.noConfusion UMode.noConfusion UMode.noConfusion
      UMode.noConfusion] at hoper
    obtain ⟨hadmin, hhadmin⟩ := h.flags hoper
    unfold Umode.checkPrivs strip
    dsimp only
    have hlose : (c.myConnect && (!c.isOperAdmin || c.operflags .hadmin)) = true := by
      unfold Client.isOperAdmin
      rw [h.myConnect, hadmin, hhadmin]
      rfl
    rw [hlose, Bool.and_true]
    generalize Client.putIf (Client.putIf (Client.putIf c _ .operwall .del) _ .nchange .del) _
      .spamnotice .del = d
    cases hd : d.umodes .admin with
    | true => exact put_del d.umodes .admin
    | false => exact hd

theorem Home.userMode (cfg : Config) {c : Client} (h : Home c)
    (hadmin : c.umodes .oper = false → c.umodes .admin = false) (n : Count) (args : List Bytes) :
    Home (Umode.userMode cfg false c n args).1 ∧
      ((Umode.userMode cfg false c n args).1.umodes .oper = false →
        (Umode.userMode cfg false c n args).1.umodes .admin = false) := by
  unfold Umode.userMode
  split
  · exact ⟨h, hadmin⟩
  · exact (Home.foldl cfg args.flatten (p := ⟨.add, c, n.oper, false⟩) h).checkPrivs

theorem Home.operUp (cfg : Config) (conf : OperConf) {c : Client} (h : Home c) (n : Count) :
    Home (Umode.operUp cfg conf c n).1 ∧ (Umode.operUp cfg conf c n).1.umodes .oper = true := by
  have hoper := (operUp_spec cfg conf c n).2
  refine ⟨⟨?_, fun hno => ?_⟩, hoper⟩
  · show (c.opered cfg conf).operedFlags.myConnect = true
    unfold Client.operedFlags
    rw [putIf_myConnect, putIf_myConnect, putIf_myConnect]
    exact h.myConnect
  · rw [hoper] at hno
    cases hno

-- ============================================================================
-- The introduction
-- ============================================================================

/-- The entries of the modes that a user is introduced with. -/
def introduced (u : Modes) : List (UMode × UInt8) := userModes.filter fun e => sendUmodes e.1 && u e.1

/-- A text that only sets modes is a sign and the letters. -/
theorem umodeText_add (u : Modes) (l : List (UMode × UInt8)) :
    umodeText true (fun _ => false) u sendUmodes (some .add) l
      = (l.filter fun e => sendUmodes e.1 && u e.1).map Prod.snd ∧
    umodeText true (fun _ => false) u sendUmodes none l
      = if (l.filter fun e => sendUmodes e.1 && u e.1) = [] then []
        else 43 :: (l.filter fun e => sendUmodes e.1 && u e.1).map Prod.snd := by
  induction l with
  | nil => exact ⟨rfl, rfl⟩
  | cons e l ih =>
    obtain ⟨flag, letter⟩ := e
    obtain ⟨hadd, hnone⟩ := ih
    rw [List.filter_cons]
    cases hsend : sendUmodes flag with
    | false =>
      rw [Bool.false_and, if_neg Bool.false_ne_true, ← hnone, ← hadd]
      exact ⟨by simp [umodeText, hsend], by simp [umodeText, hsend]⟩
    | true =>
      cases hnew : u flag with
      | false =>
        rw [Bool.and_false, if_neg Bool.false_ne_true, ← hnone, ← hadd]
        exact ⟨by simp [umodeText, hsend, hnew], by simp [umodeText, hsend, hnew]⟩
      | true => simp [umodeText, hsend, hnew, hadd]

theorem introduceText_letters {c : Client} (hmine : c.myConnect = true) (hstatus : c.status = .client) :
    (introduceText c).drop 1 = (introduced c.umodes).map Prod.snd := by
  have htext : sendUmode c (fun _ => false) sendUmodes
      = umodeText true (fun _ => false) c.umodes sendUmodes none userModes := by
    unfold sendUmode
    rw [hmine, hstatus]
    rfl
  unfold introduceText
  rw [htext, (umodeText_add c.umodes userModes).2]
  by_cases hempty : (userModes.filter fun e => sendUmodes e.1 && c.umodes e.1) = []
  · unfold introduced
    rw [if_pos hempty, hempty]
    rfl
  · rw [if_neg hempty]
    rfl

theorem userModeBitmask_entry {e : UMode × UInt8} (he : e ∈ userModes) :
    userModeBitmask e.2 = some e.1 := by
  have hall : userModes.all (fun e => decide (userModeBitmask e.2 = some e.1)) = true := by
    decide +kernel
  exact of_decide_eq_true (List.all_eq_true.mp hall e he)

/-- The mode loop of `register_client` over the letters of some entries. -/
theorem registerLetter_entries (l : List (UMode × UInt8)) : ∀ {s : Client × Count},
    (∀ e ∈ l, e ∈ userModes ∧ sendUmodes e.1 = true ∧ e.1 ≠ .service) →
    ((l.map Prod.snd).foldl registerLetter s).1.myConnect = s.1.myConnect ∧
    ∀ m, ((l.map Prod.snd).foldl registerLetter s).1.umodes m = true ↔
      s.1.umodes m = true ∨ m ∈ l.map Prod.fst := by
  induction l with
  | nil =>
    intro s _
    exact ⟨rfl, fun m => ⟨Or.inl, fun h => h.resolve_right List.not_mem_nil⟩⟩
  | cons e l ih =>
    intro s hl
    obtain ⟨⟨he, hsend, hservice⟩, hl⟩ := List.forall_mem_cons.mp hl
    have hone : (registerLetter s e.2).1 = s.1.putMode e.1 .add := by
      unfold registerLetter
      rw [userModeBitmask_entry he]
      dsimp only
      rw [if_neg fun h => hservice h.1, hsend]
      rfl
    obtain ⟨hconnect, hmodes⟩ := ih (s := registerLetter s e.2) hl
    rw [hone] at hconnect hmodes
    refine ⟨hconnect, fun m => (hmodes m).trans ?_⟩
    rw [List.map_cons, List.mem_cons]
    by_cases heq : m = e.1
    · subst heq
      exact ⟨fun _ => Or.inr (Or.inl rfl), fun _ => Or.inl (put_add ..)⟩
    · have hsame : (s.1.putMode e.1 .add).umodes m = s.1.umodes m := put_of_ne (u := s.1.umodes) heq .add
      rw [hsame]
      exact or_congr_right ⟨Or.inr, fun h => h.resolve_left heq⟩

/-- The remote server's client after the introduction. -/
def introducedClient (ipSpoof service : Bool) (n : Count) (text : Bytes) : Client :=
  (registerModes (newClient .unknown false ipSpoof false service) n text).1.setClient

theorem introducedClient_agrees {c : Client} (hmine : c.myConnect = true) (hstatus : c.status = .client)
    (hservice : c.umodes .service = false) (ipSpoof service : Bool) (n : Count) :
    (introducedClient ipSpoof service n (introduceText c)).myConnect = false ∧
    ∀ m, sendUmodes m = true →
      (introducedClient ipSpoof service n (introduceText c)).umodes m = c.umodes m := by
  unfold introducedClient registerModes
  rw [introduceText_letters hmine hstatus]
  have hentries : ∀ e ∈ introduced c.umodes,
      e ∈ userModes ∧ sendUmodes e.1 = true ∧ e.1 ≠ .service := by
    intro e he
    obtain ⟨he, hboth⟩ := List.mem_filter.mp he
    obtain ⟨hsend, hset⟩ := Bool.and_eq_true_iff.mp hboth
    refine ⟨he, hsend, fun heq => ?_⟩
    rw [heq, hservice] at hset
    cases hset
  obtain ⟨hconnect, hmodes⟩ := registerLetter_entries (introduced c.umodes)
    (s := (newClient .unknown false ipSpoof false service, n)) hentries
  refine ⟨hconnect, fun m hm => Bool.eq_iff_iff.mpr ((hmodes m).trans ?_)⟩
  constructor
  · rintro (hnone | hmem)
    · cases hnone
    · obtain ⟨e, he, rfl⟩ := List.mem_map.mp hmem
      exact (Bool.and_eq_true_iff.mp (List.mem_filter.mp he).2).2
  · intro hset
    obtain ⟨e, he, rfl⟩ := List.mem_map.mp (mem_userModes m)
    refine Or.inr (List.mem_map_of_mem (List.mem_filter.mpr ⟨he, ?_⟩))
    exact Bool.and_eq_true_iff.mpr ⟨hm, hset⟩

-- ============================================================================
-- Runs
-- ============================================================================

/-- The user holds neither `HELPOP` nor `SERVICE`. -/
def NoHelp (c : Client) : Prop := c.umodes .helpop = false ∧ c.umodes .service = false

/-- The user on its own server and on a remote one: it registers and is introduced, and
    then the modes change and the remote server hears of it. -/
inductive Run (cfg cfgR : Config) : Client → Client → Prop
  | introduce (ipSpoof inet6 service spoofR serviceR : Bool) (n nR : Count) {c : Client} :
      (registerLocal cfg (newClient .unknown true ipSpoof inet6 service) n).1 = c →
      Run cfg cfgR c (introducedClient spoofR serviceR nR (introduceText c))
  | mode {c r c' : Client} (n nR : Count) (args : List Bytes) : Run cfg cfgR c r →
      (userMode cfg false c n args).1 = c' → NoHelp c' →
      Run cfg cfgR c' (hear cfgR nR r (sendUmode c' c.umodes sendUmodes))
  | oper {c r c' : Client} (n nR : Count) (conf : OperConf) : Run cfg cfgR c r →
      (operUp cfg conf c n).1 = c' → NoHelp c' →
      Run cfg cfgR c' (hear cfgR nR r (sendUmode c' (operUp cfg conf c n).2.2 sendUmodes))

/-- What a run keeps. -/
structure Agreed (c r : Client) : Prop where
  home : Home c
  status : c.status = .client
  admin : c.umodes .oper = false → c.umodes .admin = false
  noHelp : NoHelp c
  remote : r.myConnect = false
  agree : ∀ m, sendUmodes m = true → r.umodes m = c.umodes m

/-- A change of the modes reaches the remote server. -/
theorem Agreed.change {c r c' : Client} (h : Agreed c r) (cfgR : Config) (nR : Count)
    (hhome : Home c') (hstatus : c'.status = .client)
    (hadmin : c'.umodes .oper = false → c'.umodes .admin = false) (hnoHelp : NoHelp c') :
    Agreed c' (hear cfgR nR r (sendUmode c' c.umodes sendUmodes)) := by
  have htext : sendUmode c' c.umodes sendUmodes
      = umodeText true c.umodes c'.umodes sendUmodes none userModes := by
    unfold sendUmode
    rw [hhome.myConnect, hstatus]
    rfl
  have hsendable : Sendable c.umodes c'.umodes :=
    ⟨h.noHelp.1, hnoHelp.1, h.noHelp.2, hnoHelp.2, hadmin⟩
  rw [htext]
  obtain ⟨hremote, hagree⟩ := hear_text cfgR nR h.remote hsendable h.agree
  exact ⟨hhome, hstatus, hadmin, hnoHelp, hremote, hagree⟩

theorem inter_allUmodes (u : Modes) : u.inter allUmodes = u := by
  funext m
  have hall : allUmodes m = true := by cases m <;> rfl
  show (u m && allUmodes m) = u m
  rw [hall, Bool.and_true]

theorem Agreed.introduce (cfg : Config) (ipSpoof inet6 service spoofR serviceR : Bool) (n nR : Count) :
    Agreed (registerLocal cfg (newClient .unknown true ipSpoof inet6 service) n).1
      (introducedClient spoofR serviceR nR
        (introduceText (registerLocal cfg (newClient .unknown true ipSpoof inet6 service) n).1)) := by
  have hmodes : ∀ m, m ≠ .crypthost → m ≠ .invisible →
      (registerLocal cfg (newClient .unknown true ipSpoof inet6 service) n).1.umodes m = false := by
    intro m hcrypt hinvisible
    show Client.umodes (Client.putIf (Client.putIf _ _ .crypthost .add) _ .invisible .add) m = false
    rw [(putIf_spec _ _ .invisible _).2 m hinvisible, (putIf_spec _ _ .crypthost _).2 m hcrypt]
    rfl
  have hhome : Home (registerLocal cfg (newClient .unknown true ipSpoof inet6 service) n).1 := by
    have hnew : Home (newClient .unknown true ipSpoof inet6 service) := ⟨rfl, fun _ => ⟨rfl, rfl⟩⟩
    have hput := (hnew.putIf (cfg.defaultCloak && !inet6 && !ipSpoof) UMode.noConfusion (m := .crypthost)
      .add).putIf cfg.defaultInvisible UMode.noConfusion (m := .invisible) .add
    exact ⟨hput.myConnect, hput.flags⟩
  have hservice := hmodes .service UMode.noConfusion UMode.noConfusion
  obtain ⟨hremote, hagree⟩ :=
    introducedClient_agrees hhome.myConnect rfl hservice spoofR serviceR nR
  refine ⟨hhome, rfl, fun _ => ?_, ⟨?_, hservice⟩, hremote, hagree⟩
  · exact hmodes .admin UMode.noConfusion UMode.noConfusion
  · exact hmodes .helpop UMode.noConfusion UMode.noConfusion

/-- After every run the remote server holds the user's `SEND_UMODES`. -/
theorem umodes_agree (cfg cfgR : Config) (c r : Client) (h : Run cfg cfgR c r) :
    ∀ m, sendUmodes m = true → r.umodes m = c.umodes m := by
  have hagreed : Agreed c r := by
    induction h with
    | introduce ipSpoof inet6 service spoofR serviceR n nR hc =>
      subst hc
      exact Agreed.introduce cfg ipSpoof inet6 service spoofR serviceR n nR
    | @mode c r c' n nR args _ hc hnoHelp ih =>
      subst hc
      obtain ⟨hhome, hadmin⟩ := ih.home.userMode cfg ih.admin n args
      exact ih.change cfgR nR hhome (userMode_moves cfg false ih.status n args).2 hadmin hnoHelp
    | @oper c r c' n nR conf _ hc hnoHelp ih =>
      subst hc
      obtain ⟨hhome, hoper⟩ := ih.home.operUp cfg conf n
      have hold : (operUp cfg conf c n).2.2 = c.umodes := inter_allUmodes c.umodes
      rw [hold]
      refine ih.change cfgR nR hhome ((operUp_spec cfg conf c n).1.trans ih.status) ?_ hnoHelp
      intro hno
      rw [hoper] at hno
      cases hno
  exact hagreed.agree

/-- A block that gives no modes of its own. -/
def plainConf : OperConf where
  flags f := f == .admin
  umodes _ := false

/-- A user becomes an operator and an admin, and resigns. -/
theorem umodes_agree_oper : ∃ c r, Run invisibleConfig invisibleConfig c r ∧
    (∀ m, sendUmodes m = true → r.umodes m = c.umodes m) ∧ c.umodes .wallop = true ∧
    c.umodes .admin = false := by
  have hstart : Run invisibleConfig invisibleConfig _ _ :=
    Run.introduce false false false false false ⟨0, 0, 0⟩ ⟨0, 0, 0⟩ rfl
  have hrun := Run.mode ⟨0, 0, 0⟩ ⟨0, 0, 0⟩ [[45, 111, 43, 97]]
    (Run.oper ⟨0, 0, 0⟩ ⟨0, 0, 0⟩ plainConf hstart rfl ⟨by decide, by decide⟩) rfl
    ⟨by decide, by decide⟩
  exact ⟨_, _, hrun, umodes_agree _ _ _ _ hrun, by decide, by decide⟩

end Bluebox.Umode
