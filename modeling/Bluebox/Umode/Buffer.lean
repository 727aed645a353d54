/-
  Bluebox.Umode.Buffer

  The buffer of `introduce_client`: `ubuf` has 12 bytes, and `send_umode` writes a sign,
  a letter for each mode and a NUL into it.

  The mask of `send_umode` holds back modes of a local user only.  For a remote user
  every mode that is set has its letter, and already an introduction can set more of
  `SEND_UMODES` than there is room for.
-/
import Bluebox.Umode.Agree

namespace Bluebox.Umode

open Bluebox.Lib

-- ============================================================================
-- The length of the text
-- ============================================================================

/-- `sizeof(ubuf)`. -/
def ubufSize : Nat := 12

/-- What `send_umode` writes when `introduce_client` calls it fits `ubuf`, with its NUL. -/
def FitsUbuf (c : Client) : Prop :=
  (sendUmode c (fun _ => false) sendUmodes).length + 1 ≤ ubufSize

instance (c : Client) : Decidable (FitsUbuf c) := inferInstanceAs (Decidable (_ ≤ _))

/-- The modes that `send_umode` prints of a client without an old state: those that are
    set, and for a local user those of them that are sent. -/
def printed (c : Client) : List (UMode × UInt8) :=
  userModes.filter fun e => (!(c.myConnect && c.status == .client) || sendUmodes e.1) && c.umodes e.1

/-- A text without an old state is a sign and a letter for each mode. -/
theorem umodeText_length (mine : Bool) (u : Modes) (l : List (UMode × UInt8)) :
    (umodeText mine (fun _ => false) u sendUmodes (some .add) l).length
      = (l.filter fun e => (!mine || sendUmodes e.1) && u e.1).length ∧
    (umodeText mine (fun _ => false) u sendUmodes none l).length
      = (l.filter fun e => (!mine || sendUmodes e.1) && u e.1).length
        + if (l.filter fun e => (!mine || sendUmodes e.1) && u e.1) = [] then 0 else 1 := by
  induction l with
  | nil => exact ⟨rfl, rfl⟩
  | cons e l ih =>
    obtain ⟨flag, letter⟩ := e
    obtain ⟨hadd, hnone⟩ := ih
    rw [List.filter_cons, umodeText, umodeText]
    by_cases hheld : (mine && !sendUmodes flag) = true
    · -- held back by the mask
      have hnot : ((!mine || sendUmodes flag) && u flag) = false := by
        obtain ⟨rfl, hsend⟩ := Bool.and_eq_true_iff.mp hheld
        cases hflag : sendUmodes flag with
        | false => rfl
        | true =>
          rw [hflag] at hsend
          cases hsend
      rw [if_pos hheld, if_pos hheld, hnot, if_neg Bool.false_ne_true]
      exact ⟨hadd, hnone⟩
    · have hpass : (!mine || sendUmodes flag) = true := by
        cases mine with
        | false => rfl
        | true => simpa using hheld
      rw [if_neg hheld, if_neg hheld, hpass, Bool.true_and, Bool.false_and,
        if_neg Bool.false_ne_true, if_neg Bool.false_ne_true]
      cases hset : u flag with
      | false => exact ⟨hadd, hnone⟩
      | true => simp [hadd]

/-- The text of an introduction has room for ten letters. -/
theorem fitsUbuf_iff (c : Client) : FitsUbuf c ↔ (printed c).length ≤ 10 := by
  unfold FitsUbuf sendUmode ubufSize
  rw [(umodeText_length _ c.umodes userModes).2]
  unfold printed
  split
  · next hnone =>
    rw [hnone]
    decide
  · omega

-- ============================================================================
-- The modes of an introduction
-- ============================================================================

/-- The modes that the text of an introduction gives a user: those of `SEND_UMODES` whose
    letter it has behind its first byte, `S` from a services server only. -/
def named (service : Bool) (text : Bytes) : List (UMode × UInt8) :=
  userModes.filter fun e =>
    sendUmodes e.1 && (text.drop 1).contains e.2 && (e.1 != .service || service)

theorem entry_of_userModeBitmask {b : UInt8} {m : UMode} (h : userModeBitmask b = some m) :
    (m, b) ∈ userModes := by
  unfold userModeBitmask at h
  split at h <;> first | (cases h; decide) | cases h

/-- A letter stands for one mode. -/
theorem userModeBitmask_iff {e : UMode × UInt8} (he : e ∈ userModes) (b : UInt8) :
    userModeBitmask b = some e.1 ↔ b = e.2 := by
  constructor
  · intro h
    have hall : userModes.all (fun e => userModes.all fun f => e.1 != f.1 || e.2 == f.2) = true := by
      decide +kernel
    have hone := List.all_eq_true.mp (List.all_eq_true.mp hall e he) _ (entry_of_userModeBitmask h)
    dsimp only at hone
    rw [bne_self_eq_false, Bool.false_or, beq_iff_eq] at hone
    exact hone.symm
  · rintro rfl
    exact userModeBitmask_entry he

/-- One letter in the loop of `register_client` sets its mode. -/
theorem registerLetter_umodes (s : Client × Count) (b : UInt8) {e : UMode × UInt8}
    (he : e ∈ userModes) :
    (registerLetter s b).1.service = s.1.service ∧
    (registerLetter s b).1.umodes e.1
      = (s.1.umodes e.1 || (sendUmodes e.1 && b == e.2 && (e.1 != .service || s.1.service))) := by
  unfold registerLetter
  split
  · next hnone =>
    have hne : (b == e.2) = false := beq_eq_false_iff_ne.mpr fun heq => by
      rw [(userModeBitmask_iff he b).mpr heq] at hnone
      cases hnone
    exact ⟨rfl, by rw [hne, Bool.and_false, Bool.false_and, Bool.or_false]⟩
  · next flag hflag =>
    by_cases hself : flag = e.1
    · subst hself
      have heq : (b == e.2) = true := beq_iff_eq.mpr ((userModeBitmask_iff he b).mp hflag)
      rw [heq, Bool.and_true]
      split
      · next hcond =>
        refine ⟨rfl, ?_⟩
        rw [hcond.2, hcond.1]
        exact (Bool.or_false _).symm
      · next hcond =>
        have hallowed : (e.1 != UMode.service || s.1.service) = true := by
          rw [Bool.or_eq_true, bne_iff_ne]
          by_cases hservice : e.1 = .service
          · refine Or.inr (Bool.not_eq_false _ ▸ fun hno => hcond ⟨hservice, hno⟩)
          · exact Or.inl hservice
        rw [hallowed, Bool.and_true]
        cases hsend : sendUmodes e.1 with
        | false => exact ⟨rfl, (Bool.or_false _).symm⟩
        | true => exact ⟨rfl, (put_add s.1.umodes e.1).trans (Bool.or_true _).symm⟩
    · have hne : (b == e.2) = false := beq_eq_false_iff_ne.mpr fun heq => hself <| by
        rw [(userModeBitmask_iff he b).mpr heq] at hflag
        exact (Option.some.inj hflag).symm
      rw [hne, Bool.and_false, Bool.false_and, Bool.or_false]
      split
      · exact ⟨rfl, rfl⟩
      · dsimp only
        refine ⟨?_, (putIf_spec s.1 _ flag .add).2 e.1 (Ne.symm hself)⟩
        cases sendUmodes flag <;> rfl

/-- The loop of `register_client`, letter by letter. -/
theorem registerLetter_foldl_umodes (letters : Bytes) {e : UMode × UInt8} (he : e ∈ userModes) :
    ∀ s : Client × Count, (letters.foldl registerLetter s).1.umodes e.1
      = (s.1.umodes e.1 ||
          (sendUmodes e.1 && letters.contains e.2 && (e.1 != .service || s.1.service))) := by
  induction letters with
  | nil =>
    intro s
    rw [List.contains_nil, Bool.and_false, Bool.false_and, Bool.or_false]
    rfl
  | cons b letters ih =>
    intro s
    obtain ⟨hservice, hmode⟩ := registerLetter_umodes s b he
    rw [List.foldl_cons, ih, hservice, hmode, List.contains_cons, Bool.beq_comm (a := e.2)]
    cases s.1.umodes e.1 <;> cases sendUmodes e.1 <;> cases (b == e.2) <;>
      cases (e.1 != .service || s.1.service) <;> simp

theorem registerLetter_foldl_myConnect (letters : Bytes) : ∀ s : Client × Count,
    (letters.foldl registerLetter s).1.myConnect = s.1.myConnect := by
  induction letters with
  | nil => exact fun s => rfl
  | cons b letters ih =>
    intro s
    refine (ih _).trans ?_
    unfold registerLetter
    split
    · rfl
    · split
      · rfl
      · exact putIf_myConnect ..

/-- What is printed of a user that was just introduced is what the text named. -/
theorem printed_introducedClient (ipSpoof service : Bool) (n : Count) (text : Bytes) :
    printed (introducedClient ipSpoof service n text) = named service text := by
  have hremote : (introducedClient ipSpoof service n text).myConnect = false :=
    registerLetter_foldl_myConnect (text.drop 1) _
  unfold printed named
  refine List.filter_congr fun e he => ?_
  rw [hremote, Bool.false_and, Bool.not_false, Bool.true_or, Bool.true_and]
  refine (registerLetter_foldl_umodes (text.drop 1) he _).trans ?_
  exact Bool.false_or _

-- ============================================================================
-- The introductions
-- ============================================================================

/-- Of a local user at its registration two modes can be set. -/
theorem fitsUbuf_registerLocal (cfg : Config) (ipSpoof inet6 service : Bool) (n : Count) :
    FitsUbuf (registerLocal cfg (newClient .unknown true ipSpoof inet6 service) n).1 := by
  rw [fitsUbuf_iff]
  have hsub : ∀ e : UMode × UInt8,
      (registerLocal cfg (newClient .unknown true ipSpoof inet6 service) n).1.umodes e.1 = true →
      (e.1 == .crypthost || e.1 == .invisible) = true := by
    intro e hset
    by_contra hneither
    rw [Bool.or_eq_true, beq_iff_eq, beq_iff_eq, not_or] at hneither
    have hclear : (registerLocal cfg (newClient .unknown true ipSpoof inet6 service) n).1.umodes e.1
        = false := by
      show Client.umodes (Client.putIf (Client.putIf _ _ .crypthost .add) _ .invisible .add) e.1 = false
      rw [(putIf_spec _ _ .invisible _).2 e.1 hneither.2, (putIf_spec _ _ .crypthost _).2 e.1 hneither.1]
      rfl
    rw [hclear] at hset
    cases hset
  have htwo : (userModes.filter fun e => e.1 == .crypthost || e.1 == .invisible).length ≤ 10 := by
    decide
  refine le_trans (List.Sublist.length_le (List.monotone_filter_right userModes fun e he => ?_)) htwo
  exact hsub e (Bool.and_eq_true_iff.mp he).2

-- ============================================================================
-- Later MODE commands
-- ============================================================================

/-- A remote user keeps its modes and gets at most those whose letters are read. -/
structure Gains (letters : Bytes) (c c' : Client) : Prop where
  myConnect : c'.myConnect = c.myConnect
  modes : ∀ e ∈ userModes, c'.umodes e.1 = true → c.umodes e.1 = true ∨ e.2 ∈ letters

theorem Gains.refl (letters : Bytes) (c : Client) : Gains letters c c :=
  ⟨rfl, fun _ _ h => Or.inl h⟩

theorem Gains.trans {l l' : Bytes} {c d e : Client} (h : Gains l c d) (h' : Gains l' d e) :
    Gains (l ++ l') c e := by
  refine ⟨h'.myConnect.trans h.myConnect, fun f hf hset => ?_⟩
  rcases h'.modes f hf hset with hset | hmem
  · exact (h.modes f hf hset).imp_right (List.mem_append_left _)
  · exact Or.inr (List.mem_append_right _ hmem)

theorem gains_putMode (c : Client) {m : UMode} {b : UInt8} (hletter : userModeBitmask b = some m)
    (what : What) : Gains [b] c (c.putMode m what) := by
  refine ⟨rfl, fun e he hset => ?_⟩
  by_cases heq : e.1 = m
  · subst heq
    exact Or.inr (List.mem_singleton.mpr ((userModeBitmask_iff he b).mp hletter).symm)
  · have hsame : (c.putMode m what).umodes e.1 = c.umodes e.1 := put_of_ne (u := c.umodes) heq what
    exact Or.inl (hsame ▸ hset)

/-- What only clears modes. -/
theorem gains_del (letters : Bytes) (c : Client) (m : UMode) : Gains letters c (c.putMode m .del) := by
  refine ⟨rfl, fun e _ hset => Or.inl ?_⟩
  by_cases heq : e.1 = m
  · subst heq
    have hclear : (c.putMode e.1 .del).umodes e.1 = false := put_del c.umodes e.1
    rw [hclear] at hset
    cases hset
  · have hsame : (c.putMode m .del).umodes e.1 = c.umodes e.1 := put_of_ne (u := c.umodes) heq .del
    exact hsame ▸ hset

theorem gains_putIf_del (c : Client) (b : Bool) (m : UMode) : Gains [] c (c.putIf b m .del) := by
  cases b with
  | false => exact Gains.refl [] c
  | true => exact gains_del [] c m

theorem gains_deop (cfg : Config) {c : Client} (hremote : c.myConnect = false) (letters : Bytes) :
    Gains letters c (c.deop cfg) := by
  have hdeop : c.deop cfg = (c.putMode .oper .del).putMode .admin .del := by
    unfold Client.deop
    dsimp only
    rw [if_neg (by rw [hremote]; exact Bool.false_ne_true)]
    rfl
  rw [hdeop]
  have h := (gains_del letters c .oper).trans (gains_del [] _ .admin)
  rwa [List.append_nil] at h

theorem gains_modeLetter (cfg : Config) (viaServer : Bool) (p : Parse) (b : UInt8)
    (hremote : p.client.myConnect = false) :
    Gains [b] p.client (modeLetter cfg viaServer p b).client := by
  unfold modeLetter
  split
  · exact Gains.refl [b] p.client
  split
  · exact Gains.refl [b] p.client
  split
  · next ho =>
    cases hwhat : p.what with
    | add =>
      dsimp only
      split
      · exact gains_putMode p.client (ho ▸ rfl) p.what
      · exact Gains.refl [b] p.client
    | del =>
      dsimp only
      split
      · exact gains_deop cfg hremote [b]
      · exact Gains.refl [b] p.client
  split
  · exact Gains.refl [b] p.client
  split
  · next hx =>
    split
    · exact Gains.refl [b] p.client
    · exact gains_putMode p.client (hx ▸ rfl) p.what
  split
  · exact Gains.refl [b] p.client
  split
  · next flag hflag =>
    split
    · exact Gains.refl [b] p.client
    · exact gains_putMode p.client hflag p.what
  · split <;> exact Gains.refl [b] p.client

theorem gains_foldl (cfg : Config) (viaServer : Bool) (letters : Bytes) : ∀ p : Parse,
    p.client.myConnect = false →
    Gains letters p.client (letters.foldl (modeLetter cfg viaServer) p).client := by
  induction letters with
  | nil => exact fun p _ => Gains.refl [] p.client
  | cons b letters ih =>
    intro p hremote
    have hone := gains_modeLetter cfg viaServer p b hremote
    exact hone.trans (ih _ (hone.myConnect.trans hremote))

theorem modeLetter_myConnect (cfg : Config) (viaServer : Bool) (p : Parse) (b : UInt8) :
    (modeLetter cfg viaServer p b).client.myConnect = p.client.myConnect := by
  have hdeop : (p.client.deop cfg).myConnect = p.client.myConnect := by
    unfold Client.deop
    dsimp only
    split <;> rfl
  unfold modeLetter
  repeat' split
  all_goals first | rfl | exact hdeop

theorem userMode_myConnect (cfg : Config) (viaServer : Bool) (c : Client) (n : Count)
    (args : List Bytes) : (userMode cfg viaServer c n args).1.myConnect = c.myConnect := by
  have hfold : ∀ (letters : Bytes) (p : Parse),
      (letters.foldl (modeLetter cfg viaServer) p).client.myConnect = p.client.myConnect := by
    intro letters
    induction letters with
    | nil => exact fun p => rfl
    | cons b letters ih => exact fun p => (ih _).trans (modeLetter_myConnect cfg viaServer p b)
  unfold userMode
  split
  · rfl
  · exact (checkPrivs_myConnect _).trans (hfold args.flatten _)

/-- A `MODE` of a remote user gives it at most the modes whose letters it has. -/
theorem gains_userMode (cfg : Config) (viaServer : Bool) {c : Client} (n : Count) (args : List Bytes)
    (hremote : c.myConnect = false) :
    Gains args.flatten c (userMode cfg viaServer c n args).1 := by
  unfold userMode
  split
  · exact Gains.refl _ c
  · have hletters := gains_foldl cfg viaServer args.flatten ⟨.add, c, n.oper, false⟩ hremote
    have hchecked : ∀ d : Client, Gains [] d (checkPrivs d).1 := fun d =>
      (((gains_putIf_del d _ .operwall).trans (gains_putIf_del _ _ .nchange)).trans
        (gains_putIf_del _ _ .spamnotice)).trans (gains_putIf_del _ _ .admin)
    have h := hletters.trans (hchecked _)
    rwa [List.append_nil] at h

-- ============================================================================
-- Runs
-- ============================================================================

/-- A step that leaves room: an introduction names at most ten modes, a `MODE` of a remote
    user has at most ten with those that are set, and only local users come with `OPER`. -/
def LeavesRoom (s : Net) : Event → Prop
  | .registerClient _ _ service text _ => (named service text).length ≤ 10
  | .mode _ x args => (s.client x).myConnect = true ∨
      (userModes.filter fun e => (s.client x).umodes e.1 || args.flatten.contains e.2).length ≤ 10
  | .oper x _ => (s.client x).myConnect = true
  | _ => True

/-- A client that does not come from this server fits the buffer once it is registered. -/
structure InRoom (c : Client) : Prop where
  unknown : c.status = .unknown → c.myConnect = true
  fits : c.status = .client → c.myConnect = false → FitsUbuf c

/-- What such a run keeps. -/
def Roomy (s : Net) : Prop := ∀ x ∈ s.globalClientList, InRoom (s.client x)

variable {s : Net}

/-- A record changes, or comes on the list. -/
theorem Roomy.set (h : Roomy s) {x : Nat} {c : Client} {n : Count} {l : List Nat}
    (hl : ∀ y ∈ l, y = x ∨ y ∈ s.globalClientList) (hc : InRoom c) :
    Roomy { s.set x c n with globalClientList := l } := by
  intro y hy
  show InRoom (Function.update s.client x c y)
  by_cases heq : y = x
  · subst heq
    rw [Function.update_self]
    exact hc
  · rw [Function.update_of_ne heq]
    exact h y ((hl y hy).resolve_left heq)

theorem Roomy.add (h : Roomy s) {x : Nat} {c : Client} {n : Count} (hc : InRoom c) :
    Roomy ((s.set x c n).addTail x) := by
  refine h.set (l := s.globalClientList ++ [x]) (fun y hy => ?_) hc
  rcases List.mem_append.mp hy with hy | hy
  · exact Or.inr hy
  · exact Or.inl (List.mem_singleton.mp hy)

theorem Roomy.removeClientFromList (h : Roomy s) (x : Nat) : Roomy (s.removeClientFromList x) := by
  unfold Net.removeClientFromList
  split
  · exact h
  · exact fun y hy => h y (List.mem_of_mem_erase hy)

theorem Roomy.netsplit (lost : List Nat) : ∀ {s : Net}, Roomy s →
    Roomy (lost.foldl Net.removeClientFromList s) := by
  induction lost with
  | nil => exact fun h => h
  | cons x lost ih => exact fun h => ih (h.removeClientFromList x)

/-- The modes that a remote user has after a `MODE` are among those before it and those it
    names. -/
theorem fitsUbuf_userMode (cfg : Config) (viaServer : Bool) {c : Client} (n : Count)
    (args : List Bytes) (hremote : c.myConnect = false)
    (hroom : (userModes.filter fun e => c.umodes e.1 || args.flatten.contains e.2).length ≤ 10) :
    FitsUbuf (userMode cfg viaServer c n args).1 := by
  rw [fitsUbuf_iff]
  have hgains := gains_userMode cfg viaServer n args hremote
  refine le_trans (List.Sublist.length_le ?_) hroom
  have hsub : printed (userMode cfg viaServer c n args).1 =
      (userModes.filter fun e => c.umodes e.1 || args.flatten.contains e.2).filter fun e =>
        (!((userMode cfg viaServer c n args).1.myConnect &&
          (userMode cfg viaServer c n args).1.status == .client) || sendUmodes e.1) &&
        (userMode cfg viaServer c n args).1.umodes e.1 := by
    unfold printed
    rw [List.filter_filter]
    refine List.filter_congr fun e he => ?_
    cases hset : (userMode cfg viaServer c n args).1.umodes e.1 with
    | false => rw [Bool.and_false, Bool.false_and]
    | true =>
      have hbefore : (c.umodes e.1 || args.flatten.contains e.2) = true :=
        Bool.or_eq_true_iff.mpr ((hgains.modes e he hset).imp_right List.contains_iff_mem.mpr)
      rw [hbefore, Bool.and_true, Bool.and_true]
  rw [hsub]
  exact List.filter_sublist

/-- A step that leaves room keeps every remote user within the buffer. -/
theorem Roomy.step (cfg : Config) {s s' : Net} {e : Event} (h : Roomy s) (hroom : LeavesRoom s e)
    (hs : Umode.step cfg s e = some s') : Roomy s' := by
  cases e with
  | connect x ipSpoof inet6 =>
    simp only [Umode.step, Option.ite_none_left_eq_some, Option.some.injEq] at hs
    obtain ⟨-, rfl⟩ := hs
    exact h.add ⟨fun _ => rfl, Status.noConfusion⟩
  | registerLocal x =>
    simp only [Umode.step, Option.ite_none_right_eq_some, Option.some.injEq] at hs
    obtain ⟨⟨hmem, hstatus⟩, rfl⟩ := hs
    have hmine : (Umode.registerLocal cfg (s.client x) s.count).1.myConnect = true := by
      show (Client.putIf (Client.putIf _ _ .crypthost .add) _ .invisible .add).myConnect = true
      rw [putIf_myConnect, putIf_myConnect]
      exact (h x hmem).unknown hstatus
    refine h.set (fun y hy => Or.inr hy) ⟨fun _ => hmine, fun _ hremote => ?_⟩
    rw [hmine] at hremote
    cases hremote
  | server x =>
    simp only [Umode.step, Option.ite_none_left_eq_some, Option.some.injEq] at hs
    obtain ⟨-, rfl⟩ := hs
    exact h.add ⟨Status.noConfusion, Status.noConfusion⟩
  | establish x =>
    simp only [Umode.step, Option.ite_none_right_eq_some, Option.some.injEq] at hs
    obtain ⟨-, rfl⟩ := hs
    exact h.set (fun y hy => Or.inr hy) ⟨Status.noConfusion, Status.noConfusion⟩
  | registerClient x ipSpoof service text wrongDirection =>
    simp only [Umode.step, Option.ite_none_left_eq_some, Option.some.injEq] at hs
    obtain ⟨-, rfl⟩ := hs
    have hfits : FitsUbuf (introducedClient ipSpoof service s.count text) := by
      rw [fitsUbuf_iff, printed_introducedClient]
      exact hroom
    have hadd := h.add (x := x) (n := (registerModes (newClient .unknown false ipSpoof false service)
      s.count text).2.registered) (c := introducedClient ipSpoof service s.count text)
      ⟨Status.noConfusion, fun _ _ => hfits⟩
    split
    · exact hadd.removeClientFromList x
    · exact hadd
  | mode clientP x args =>
    simp only [Umode.step, Option.ite_none_right_eq_some, Option.some.injEq] at hs
    obtain ⟨⟨hmem, hstatus⟩, rfl⟩ := hs
    have hclient := (userMode_moves cfg ((s.client clientP).status == .server) hstatus s.count args).2
    refine h.set (fun y hy => Or.inr hy) ⟨fun hno => ?_, fun _ hremote => ?_⟩
    · rw [hclient] at hno
      cases hno
    · have hbefore : (s.client x).myConnect = false :=
        (userMode_myConnect cfg _ (s.client x) s.count args).symm.trans hremote
      refine fitsUbuf_userMode cfg _ s.count args hbefore (hroom.resolve_left ?_)
      rw [hbefore]
      exact Bool.false_ne_true
  | oper x conf =>
    simp only [Umode.step, Option.ite_none_right_eq_some] at hs
    obtain ⟨⟨hmem, hstatus⟩, hs⟩ := hs
    have hmine : (s.client x).myConnect = true := hroom
    cases conf with
    | none =>
      cases hs
      exact h
    | some conf =>
      dsimp only at hs
      split at hs
      · cases hs
        exact h
      · cases hs
        have hmine' : (operUp cfg conf (s.client x) s.count).1.myConnect = true := by
          show ((s.client x).opered cfg conf).operedFlags.myConnect = true
          unfold Client.operedFlags
          rw [putIf_myConnect, putIf_myConnect, putIf_myConnect]
          exact hmine
        refine h.set (fun y hy => Or.inr hy) ⟨fun _ => hmine', fun _ hremote => ?_⟩
        rw [hmine'] at hremote
        cases hremote
  | exit x =>
    simp only [Umode.step, Option.ite_none_left_eq_some, Option.some.injEq] at hs
    obtain ⟨-, rfl⟩ := hs
    exact h.removeClientFromList x
  | netsplit lost =>
    simp only [Umode.step, Option.ite_none_left_eq_some, Option.some.injEq] at hs
    obtain ⟨-, rfl⟩ := hs
    exact Roomy.netsplit lost h

/-- `send_umode` stays within `ubuf` for exactly the users of whom it prints at most ten
    modes.  A local user that registers is one of them, and a remote one that is introduced
    is one if its text names at most ten modes.  Where every introduction and every `MODE`
    leaves room, all remote users stay within it. -/
theorem introduction_fits_iff (cfg : Config) (me : Nat) :
    (∀ c : Client, FitsUbuf c ↔ (printed c).length ≤ 10) ∧
    (∀ ipSpoof inet6 service n,
      FitsUbuf (registerLocal cfg (newClient .unknown true ipSpoof inet6 service) n).1) ∧
    (∀ ipSpoof service n text,
      FitsUbuf (introducedClient ipSpoof service n text) ↔ (named service text).length ≤ 10) ∧
    ∀ s, Reach (Umode.step cfg) LeavesRoom (start me) s → ∀ x ∈ s.globalClientList,
      (s.client x).status = .client → (s.client x).myConnect = false → FitsUbuf (s.client x) := by
  refine ⟨fitsUbuf_iff, fitsUbuf_registerLocal cfg, fun ipSpoof service n text => ?_,
    fun s h x hx hclient hremote => ?_⟩
  · rw [fitsUbuf_iff, printed_introducedClient]
  · have hstart : Roomy (start me) := fun _ _ => ⟨Status.noConfusion, Status.noConfusion⟩
    have hroomy : Roomy s := h.invariant hstart fun _ _ _ hinv hok hs => hinv.step cfg hok hs
    exact (hroomy x hx).fits hclient hremote

/-- A server introduces a user with two modes. -/
theorem introduction_fits_small :
    ∃ s, Reach (Umode.step invisibleConfig) LeavesRoom (start 0) s ∧ 2 ∈ s.globalClientList ∧
      FitsUbuf (s.client 2) := by
  have hserver : Reach (Umode.step invisibleConfig) LeavesRoom (start 0)
      (Reach.perform (Umode.step invisibleConfig) (start 0) (.server 1)) :=
    Reach.init.performed trivial
  have hroom : LeavesRoom (Reach.perform (Umode.step invisibleConfig) (start 0) (.server 1))
      (.registerClient 2 false false [43, 105, 111] false) := by
    show (named false [43, 105, 111]).length ≤ 10
    decide
  have hclient := hserver.performed hroom
  exact ⟨_, hclient, by decide, (introduction_fits_iff invisibleConfig 0).2.2.2 _ hclient 2
    (by decide) (by decide) (by decide)⟩

/-- A server introduces a user with eleven modes. -/
def longRun : List Event :=
  [.server 1, .registerClient 2 false false
    [43, 97, 68, 104, 105, 73, 111, 113, 82, 119, 120, 121] false]

/-- The text for this user has a sign and eleven letters, and no room for its NUL. -/
theorem not_introduction_fits :
    ∃ s, Reach (Umode.step invisibleConfig) anyStep (start 0) s ∧ 2 ∈ s.globalClientList ∧
      (s.client 2).status = .client ∧ ¬ FitsUbuf (s.client 2) :=
  ⟨longRun.foldl (Reach.perform (Umode.step invisibleConfig)) (start 0),
    Reach.performed_all longRun Reach.init, by decide, by decide, by decide⟩

end Bluebox.Umode
