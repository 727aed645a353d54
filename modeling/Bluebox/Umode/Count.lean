/-
  Bluebox.Umode.Count

  The counters of `LUSERS` are exact.

  The state is the clients on `global_client_list`.  They come as unknown connections or
  as remote users and servers, and go through `remove_client_from_list`; in between their
  modes change.  Each of these keeps the counters equal to what they count.
-/
import Bluebox.Umode.Basic
import Bluebox.Lib.Reach
import Bluebox.Lib.Tally

namespace Bluebox.Umode

open Bluebox.Lib

-- ============================================================================
-- The clients
-- ============================================================================

/-- The clients, their list and the counters. -/
structure Net where
  client : Nat → Client
  globalClientList : List Nat
  count : Count

/-- A client's record and the counters change. -/
def Net.set (s : Net) (x : Nat) (c : Client) (n : Count) : Net :=
  { s with client := Function.update s.client x c, count := n }

/-- `rb_dlinkAddTail` on `global_client_list`. -/
def Net.addTail (s : Net) (x : Nat) : Net := { s with globalClientList := s.globalClientList ++ [x] }

/-- `update_client_exit_stats`. -/
def exitStats (n : Count) (c : Client) : Count :=
  if c.status = .client then
    { total := n.total - 1
      oper := if c.umodes .oper then n.oper - 1 else n.oper
      invisi := if c.umodes .invisible then n.invisi - 1 else n.invisi }
  else n

/-- `remove_client_from_list`: a node without neighbours stays. -/
def Net.removeClientFromList (s : Net) (x : Nat) : Net :=
  if x ∉ s.globalClientList ∨ s.globalClientList = [x] then s
  else { s with globalClientList := s.globalClientList.erase x
                count := exitStats s.count (s.client x) }

/-- A new client, from `make_client`. -/
def newClient (status : Status) (myConnect ipSpoof inet6 service : Bool) : Client where
  status := status
  myConnect := myConnect
  umodes _ := false
  operflags _ := false
  ipSpoof := ipSpoof
  inet6 := inet6
  service := service

/-- `SetClient`. -/
def Client.setClient (c : Client) : Client := { c with status := .client }

/-- `++Count.total`. -/
def Count.registered (n : Count) : Count := { n with total := n.total + 1 }

/-- `register_local_user`, from `default_cloak` to the counters. -/
def registerLocal (cfg : Config) (c : Client) (n : Count) : Client × Count :=
  let cloaked := c.putIf (cfg.defaultCloak && !c.inet6 && !c.ipSpoof) .crypthost .add
  ((cloaked.putIf cfg.defaultInvisible .invisible .add).setClient,
   { n with invisi := if cfg.defaultInvisible then n.invisi + 1 else n.invisi, total := n.total + 1 })

-- ============================================================================
-- Steps
-- ============================================================================

/-- What can happen to the clients. -/
inductive Event
  /-- A connection, before its registration. -/
  | connect (x : Nat) (ipSpoof inet6 : Bool)
  | registerLocal (x : Nat)
  /-- A server behind a link. -/
  | server (x : Nat)
  /-- A connection turns out to be a server. -/
  | establish (x : Nat)
  /-- `register_client`; the user of a wrong direction is killed at once. -/
  | registerClient (x : Nat) (ipSpoof service : Bool) (text : Bytes) (wrongDirection : Bool)
  /-- `MODE` of a user, over a link. -/
  | mode (clientP x : Nat) (args : List Bytes)
  /-- `OPER`, with the block it matches. -/
  | oper (x : Nat) (conf : Option OperConf)
  | exit (x : Nat)
  /-- The users and servers that a split takes away, in this order. -/
  | netsplit (lost : List Nat)

/-- A step.  A new client is not on the list, and a user is registered. -/
def step (cfg : Config) (s : Net) : Event → Option Net
  | .connect x ipSpoof inet6 =>
    if x ∈ s.globalClientList then none
    else some ((s.set x (newClient .unknown true ipSpoof inet6 false) s.count).addTail x)
  | .registerLocal x =>
    if x ∈ s.globalClientList ∧ (s.client x).status = .unknown then
      let r := Umode.registerLocal cfg (s.client x) s.count
      some (s.set x r.1 r.2)
    else none
  | .server x =>
    if x ∈ s.globalClientList then none
    else some ((s.set x (newClient .server false false false false) s.count).addTail x)
  | .establish x =>
    if x ∈ s.globalClientList ∧ (s.client x).status = .unknown then
      some (s.set x { s.client x with status := .server } s.count)
    else none
  | .registerClient x ipSpoof service text wrongDirection =>
    if x ∈ s.globalClientList then none
    else
      let r := registerModes (newClient .unknown false ipSpoof false service) s.count text
      let s := (s.set x r.1.setClient r.2.registered).addTail x
      some (if wrongDirection then s.removeClientFromList x else s)
  | .mode clientP x args =>
    if x ∈ s.globalClientList ∧ (s.client x).status = .client then
      let r := userMode cfg ((s.client clientP).status == .server) (s.client x) s.count args
      some (s.set x r.1 r.2.1)
    else none
  | .oper x conf =>
    if x ∈ s.globalClientList ∧ (s.client x).status = .client then
      match conf with
      | none => some s
      | some conf =>
        if (s.client x).umodes .oper then some s
        else
          let r := operUp cfg conf (s.client x) s.count
          some (s.set x r.1 r.2.1)
    else none
  | .exit x => if (s.client x).status = .me then none else some (s.removeClientFromList x)
  | .netsplit lost =>
    if lost.any fun x => (s.client x).status == .me then none
    else some (lost.foldl Net.removeClientFromList s)

/-- The start: this server alone. -/
def start (me : Nat) : Net where
  client _ := newClient .me false false false false
  globalClientList := [me]
  count := ⟨0, 0, 0⟩

-- ============================================================================
-- The invariant
-- ============================================================================

/-- A registered client. -/
def Client.isUser (c : Client) : Bool := c.status == .client

/-- A registered client with a mode. -/
def Client.isUserWith (m : UMode) (c : Client) : Bool := c.status == .client && c.umodes m

/-- The counters count. -/
structure Exact (s : Net) : Prop where
  total : s.count.total = tally Client.isUser s.client s.globalClientList
  oper : s.count.oper = tally (Client.isUserWith .oper) s.client s.globalClientList
  invisi : s.count.invisi = tally (Client.isUserWith .invisible) s.client s.globalClientList

/-- The counters count, the list is headed by this server, and a connection has no modes
    that are counted before its registration. -/
structure Inv (me : Nat) (s : Net) : Prop where
  exact_ : Exact s
  nodup : s.globalClientList.Nodup
  me_mem : me ∈ s.globalClientList
  me_status : (s.client me).status = .me
  unknown : ∀ x, (s.client x).status = .unknown →
    (s.client x).umodes .oper = false ∧ (s.client x).umodes .invisible = false

/-- A change of one record moves the counters by what the record counts. -/
structure Moves (c c' : Client) (n n' : Count) : Prop where
  total : n'.total = n.total - one c.isUser + one c'.isUser
  oper : n'.oper = n.oper - one (c.isUserWith .oper) + one (c'.isUserWith .oper)
  invisi : n'.invisi = n.invisi - one (c.isUserWith .invisible) + one (c'.isUserWith .invisible)

theorem Moves.refl (c : Client) (n : Count) : Moves c c n n :=
  ⟨(Int.sub_add_cancel ..).symm, (Int.sub_add_cancel ..).symm, (Int.sub_add_cancel ..).symm⟩

variable {me x : Nat} {s : Net}

/-- A record on the list changes. -/
theorem Inv.set (h : Inv me s) (hmem : x ∈ s.globalClientList) (hme : x ≠ me) {c : Client} {n : Count}
    (hmoves : Moves (s.client x) c s.count n) (hstatus : c.status ≠ .unknown) :
    Inv me (s.set x c n) := by
  refine ⟨⟨?_, ?_, ?_⟩, h.nodup, h.me_mem, ?_, fun y hy => ?_⟩
  · refine hmoves.total.trans ?_
    rw [h.exact_.total]
    exact (tally_update _ s.client h.nodup hmem c).symm
  · refine hmoves.oper.trans ?_
    rw [h.exact_.oper]
    exact (tally_update _ s.client h.nodup hmem c).symm
  · refine hmoves.invisi.trans ?_
    rw [h.exact_.invisi]
    exact (tally_update _ s.client h.nodup hmem c).symm
  · exact (congrArg Client.status (Function.update_of_ne (Ne.symm hme) ..)).trans h.me_status
  · by_cases heq : y = x
    · subst heq
      have hself : (s.set y c n).client y = c := Function.update_self ..
      rw [hself] at hy
      exact absurd hy hstatus
    · have hother : (s.set x c n).client y = s.client y := Function.update_of_ne heq ..
      rw [hother] at hy ⊢
      exact h.unknown y hy

/-- What a new record counts. -/
structure Adds (c : Client) (n n' : Count) : Prop where
  total : n'.total = n.total + one c.isUser
  oper : n'.oper = n.oper + one (c.isUserWith .oper)
  invisi : n'.invisi = n.invisi + one (c.isUserWith .invisible)

/-- A new client comes on the list. -/
theorem Inv.add (h : Inv me s) (hmem : x ∉ s.globalClientList) {c : Client} {n : Count}
    (hadds : Adds c s.count n)
    (hunknown : c.status = .unknown → c.umodes .oper = false ∧ c.umodes .invisible = false) :
    Inv me ((s.set x c n).addTail x) := by
  have htally : ∀ p : Client → Bool,
      tally p ((s.set x c n).addTail x).client ((s.set x c n).addTail x).globalClientList
        = tally p s.client s.globalClientList + one (p c) := by
    intro p
    refine (tally_concat p _ s.globalClientList x).trans ?_
    have hself : ((s.set x c n).addTail x).client x = c := Function.update_self ..
    rw [hself]
    exact congrArg (· + one (p c)) (tally_update_of_not_mem p s.client hmem c)
  have hme : me ≠ x := fun heq => hmem (heq ▸ h.me_mem)
  refine ⟨⟨?_, ?_, ?_⟩, ?_, List.mem_append_left _ h.me_mem, ?_, fun y hy => ?_⟩
  · rw [htally, ← h.exact_.total]
    exact hadds.total
  · rw [htally, ← h.exact_.oper]
    exact hadds.oper
  · rw [htally, ← h.exact_.invisi]
    exact hadds.invisi
  · refine List.nodup_append.mpr ⟨h.nodup, List.nodup_singleton x, fun a ha b hb => ?_⟩
    rw [List.mem_singleton] at hb
    exact fun heq => hmem (hb ▸ heq ▸ ha)
  · exact (congrArg Client.status (Function.update_of_ne hme ..)).trans h.me_status
  · by_cases heq : y = x
    · subst heq
      have hself : ((s.set y c n).addTail y).client y = c := Function.update_self ..
      rw [hself] at hy ⊢
      exact hunknown hy
    · have hother : ((s.set x c n).addTail x).client y = s.client y := Function.update_of_ne heq ..
      rw [hother] at hy ⊢
      exact h.unknown y hy

/-- A client goes. -/
theorem Inv.removeClientFromList (h : Inv me s) (hme : (s.client x).status ≠ .me) :
    Inv me (s.removeClientFromList x) := by
  unfold Net.removeClientFromList
  split
  · exact h
  · next hcond =>
    rw [not_or, not_not] at hcond
    have hmem := hcond.1
    have hne : me ≠ x := fun heq => hme (heq ▸ h.me_status)
    refine ⟨⟨?_, ?_, ?_⟩, h.nodup.erase x, (List.mem_erase_of_ne hne).mpr h.me_mem, h.me_status,
      h.unknown⟩
    · show (exitStats s.count (s.client x)).total = tally _ s.client (s.globalClientList.erase x)
      rw [tally_erase _ _ hmem, ← h.exact_.total]
      unfold exitStats Client.isUser one
      split <;> simp_all
    · show (exitStats s.count (s.client x)).oper = tally _ s.client (s.globalClientList.erase x)
      rw [tally_erase _ _ hmem, ← h.exact_.oper]
      unfold exitStats Client.isUserWith one
      cases (s.client x).umodes .oper <;> split <;> simp_all
    · show (exitStats s.count (s.client x)).invisi = tally _ s.client (s.globalClientList.erase x)
      rw [tally_erase _ _ hmem, ← h.exact_.invisi]
      unfold exitStats Client.isUserWith one
      cases (s.client x).umodes .invisible <;> split <;> simp_all

-- ============================================================================
-- The counters in user_mode
-- ============================================================================

theorem eq_of_userModeBitmask_oper {c : UInt8} (h : userModeBitmask c = some .oper) : c = 111 := by
  unfold userModeBitmask at h
  split at h <;> first | rfl | cases h

theorem put_of_ne {u : Modes} {m k : UMode} (h : k ≠ m) (what : What) : u.put m what k = u k := by
  cases what with
  | add => exact Function.update_of_ne h ..
  | del => exact Function.update_of_ne h ..

theorem put_add (u : Modes) (m : UMode) : u.put m .add m = true := Function.update_self ..

theorem put_del (u : Modes) (m : UMode) : u.put m .del m = false := Function.update_self ..

/-- A mode that is set or cleared under a condition. -/
theorem putIf_spec (c : Client) (b : Bool) (m : UMode) (what : What) :
    (c.putIf b m what).status = c.status ∧
    ∀ k, k ≠ m → (c.putIf b m what).umodes k = c.umodes k := by
  cases b with
  | true => exact ⟨rfl, fun k hk => put_of_ne (u := c.umodes) hk what⟩
  | false => exact ⟨rfl, fun _ _ => rfl⟩

/-- A parser that has moved on: the `oper` counter has followed the bit. -/
structure Follows (p p' : Parse) : Prop where
  oper : p'.oper - one (p'.client.umodes .oper) = p.oper - one (p.client.umodes .oper)
  status : p'.client.status = p.client.status

theorem Follows.refl (p : Parse) : Follows p p := ⟨rfl, rfl⟩

theorem Follows.trans {p q r : Parse} (h : Follows p q) (h' : Follows q r) : Follows p r :=
  ⟨h'.oper.trans h.oper, h'.status.trans h.status⟩

theorem follows_putMode (p : Parse) {m : UMode} (h : m ≠ .oper) : Follows p (p.putMode m) := by
  refine ⟨?_, rfl⟩
  have hsame : (p.putMode m).client.umodes .oper = p.client.umodes .oper := put_of_ne (Ne.symm h) _
  rw [hsame]
  rfl

/-- `o` sets and clears the bit together with the counter. -/
theorem follows_oper (cfg : Config) (viaServer : Bool) (p : Parse) :
    Follows p (modeLetter cfg viaServer p 111) := by
  unfold modeLetter
  rw [if_neg (by decide), if_neg (by decide), if_pos rfl]
  cases hwhat : p.what with
  | add =>
    dsimp only
    split
    · next hset =>
      have hnot : p.client.umodes .oper = false := by
        rw [Bool.and_eq_true_iff, Bool.not_eq_true'] at hset
        exact hset.2
      have hnow : (p.putMode .oper).client.umodes .oper = true := by
        show p.client.umodes.put .oper p.what .oper = true
        rw [hwhat]
        exact put_add ..
      refine ⟨?_, rfl⟩
      show p.oper + 1 - one ((p.putMode .oper).client.umodes .oper) = _
      rw [hnow, hnot]
      show p.oper + 1 - 1 = p.oper - 0
      omega
    · exact Follows.refl p
  | del =>
    dsimp only
    split
    · next hset =>
      have hnow : (p.client.deop cfg).umodes .oper = false := by
        have hput : (p.client.umodes.put .oper .del).put .admin .del .oper = false := by
          rw [put_of_ne UMode.noConfusion]
          exact put_del ..
        unfold Client.deop
        dsimp only
        split
        · show ((p.client.umodes.put .oper .del).put .admin .del .oper &&
            !cfg.operOnlyUmodes .oper) = false
          rw [hput]
          rfl
        · exact hput
      refine ⟨?_, ?_⟩
      · show p.oper - 1 - one ((p.client.deop cfg).umodes .oper) = _
        rw [hnow, hset]
        show p.oper - 1 - 0 = p.oper - 1
        omega
      · unfold Client.deop
        dsimp only
        split <;> rfl
    · exact Follows.refl p

theorem follows_modeLetter (cfg : Config) (viaServer : Bool) (p : Parse) (c : UInt8) :
    Follows p (modeLetter cfg viaServer p c) := by
  by_cases hoper : c = 111
  · rw [hoper]
    exact follows_oper cfg viaServer p
  · unfold modeLetter
    rw [if_neg hoper]
    split
    · exact ⟨rfl, rfl⟩
    split
    · exact ⟨rfl, rfl⟩
    split
    · exact Follows.refl p
    split
    · split
      · exact ⟨rfl, rfl⟩
      · exact follows_putMode p UMode.noConfusion
    split
    · exact Follows.refl p
    split
    · next flag hflag =>
      split
      · exact ⟨rfl, rfl⟩
      · exact follows_putMode p fun heq => hoper (eq_of_userModeBitmask_oper (heq ▸ hflag))
    · split
      · exact ⟨rfl, rfl⟩
      · exact Follows.refl p

/-- The whole of the mode strings, letter by letter. -/
theorem follows_foldl (cfg : Config) (viaServer : Bool) (letters : Bytes) : ∀ p : Parse,
    Follows p (letters.foldl (modeLetter cfg viaServer) p) := by
  induction letters with
  | nil => exact Follows.refl
  | cons c letters ih =>
    intro p
    exact (follows_modeLetter cfg viaServer p c).trans (ih _)

/-- The tests after the parser leave the counted modes alone. -/
theorem checkPrivs_spec (c : Client) :
    (checkPrivs c).1.status = c.status ∧
    ∀ k, k ≠ .operwall → k ≠ .nchange → k ≠ .spamnotice → k ≠ .admin →
      (checkPrivs c).1.umodes k = c.umodes k := by
  unfold checkPrivs strip
  dsimp only
  refine ⟨?_, fun k hz hn hm ha => ?_⟩
  · rw [(putIf_spec _ _ .admin _).1, (putIf_spec _ _ .spamnotice _).1, (putIf_spec _ _ .nchange _).1,
      (putIf_spec _ _ .operwall _).1]
  · rw [(putIf_spec _ _ .admin _).2 k ha, (putIf_spec _ _ .spamnotice _).2 k hm,
      (putIf_spec _ _ .nchange _).2 k hn, (putIf_spec _ _ .operwall _).2 k hz]

theorem seen_invisi (n : Count) (old new : Modes) :
    (n.seen old new).total = n.total ∧ (n.seen old new).oper = n.oper ∧
    (n.seen old new).invisi = n.invisi - one (old .invisible) + one (new .invisible) := by
  unfold Count.seen one
  cases old .invisible <;> cases new .invisible <;> simp

/-- `user_mode` moves the counters with the modes. -/
theorem userMode_moves (cfg : Config) (viaServer : Bool) {c : Client} (hc : c.status = .client)
    (n : Count) (args : List Bytes) :
    Moves c (userMode cfg viaServer c n args).1 n (userMode cfg viaServer c n args).2.1 ∧
      (userMode cfg viaServer c n args).1.status = .client := by
  have hwith : ∀ m, c.isUserWith m = c.umodes m := fun m => by rw [Client.isUserWith, hc]; rfl
  unfold userMode
  split
  · exact ⟨Moves.refl c n, hc⟩
  · dsimp only
    have hfollows : Follows ⟨.add, c, n.oper, false⟩ (parseModes cfg viaServer c n args) :=
      follows_foldl cfg viaServer args.flatten _
    obtain ⟨hstatus, hmodes⟩ := checkPrivs_spec (parseModes cfg viaServer c n args).client
    have hstatus' : (checkPrivs (parseModes cfg viaServer c n args).client).1.status = .client :=
      hstatus.trans (hfollows.status.trans hc)
    have hwith' : ∀ m, (checkPrivs (parseModes cfg viaServer c n args).client).1.isUserWith m
        = (checkPrivs (parseModes cfg viaServer c n args).client).1.umodes m := fun m => by
      rw [Client.isUserWith, hstatus']
      rfl
    obtain ⟨htotal, hoper, hinvisi⟩ := seen_invisi
      ({ n with oper := (parseModes cfg viaServer c n args).oper } : Count) c.umodes
      (checkPrivs (parseModes cfg viaServer c n args).client).1.umodes
    refine ⟨⟨?_, ?_, ?_⟩, hstatus'⟩
    · rw [htotal]
      unfold Client.isUser
      rw [hc, hstatus']
      exact (Int.sub_add_cancel n.total _).symm
    · have hfollow := hfollows.oper
      rw [hoper, hwith, hwith', hmodes .oper UMode.noConfusion UMode.noConfusion UMode.noConfusion
        UMode.noConfusion]
      dsimp only at hfollow ⊢
      omega
    · rw [hinvisi, hwith, hwith']

-- ============================================================================
-- The counters in OPER and in the registrations
-- ============================================================================

theorem operUp_spec (cfg : Config) (conf : OperConf) (c : Client) (n : Count) :
    (operUp cfg conf c n).1.status = c.status ∧ (operUp cfg conf c n).1.umodes .oper = true := by
  show (c.opered cfg conf).operedFlags.status = _ ∧ (c.opered cfg conf).operedFlags.umodes .oper = true
  unfold Client.operedFlags
  constructor
  · rw [(putIf_spec _ _ .operwall _).1, (putIf_spec _ _ .nchange _).1, (putIf_spec _ _ .admin _).1]
    rfl
  · rw [(putIf_spec _ _ .operwall _).2 .oper UMode.noConfusion,
      (putIf_spec _ _ .nchange _).2 .oper UMode.noConfusion,
      (putIf_spec _ _ .admin _).2 .oper UMode.noConfusion]
    show (c.umodes.put .oper .add .oper || operModes cfg conf .oper) = true
    rw [put_add]
    rfl

theorem operUp_moves (cfg : Config) (conf : OperConf) {c : Client} (hc : c.status = .client)
    (hoper : c.umodes .oper = false) (n : Count) :
    Moves c (operUp cfg conf c n).1 n (operUp cfg conf c n).2.1 ∧
      (operUp cfg conf c n).1.status = .client := by
  obtain ⟨hstatus, hnow⟩ := operUp_spec cfg conf c n
  rw [hc] at hstatus
  obtain ⟨htotal, hcount, hinvisi⟩ := seen_invisi ({ n with oper := n.oper + 1 } : Count)
    (c.umodes.inter allUmodes) (operUp cfg conf c n).1.umodes
  refine ⟨⟨?_, ?_, ?_⟩, hstatus⟩
  · refine htotal.trans ?_
    unfold Client.isUser
    rw [hc, hstatus]
    exact (Int.sub_add_cancel n.total _).symm
  · refine hcount.trans ?_
    unfold Client.isUserWith
    rw [hc, hstatus, hnow, hoper]
    show n.oper + 1 = n.oper - 0 + 1
    omega
  · refine hinvisi.trans ?_
    unfold Client.isUserWith
    rw [hc, hstatus]
    have hold : c.umodes.inter allUmodes .invisible = c.umodes .invisible := Bool.and_true _
    rw [hold]
    rfl

theorem registerLocal_moves (cfg : Config) {c : Client} (hc : c.status = .unknown)
    (hoper : c.umodes .oper = false) (hinvisible : c.umodes .invisible = false) (n : Count) :
    Moves c (registerLocal cfg c n).1 n (registerLocal cfg c n).2 ∧
      (registerLocal cfg c n).1.status = .client := by
  unfold registerLocal
  dsimp only
  obtain ⟨-, hcloak⟩ := putIf_spec c (cfg.defaultCloak && !c.inet6 && !c.ipSpoof) .crypthost .add
  have hoper' := (hcloak .oper UMode.noConfusion).trans hoper
  have hinvisible' := (hcloak .invisible UMode.noConfusion).trans hinvisible
  generalize c.putIf (cfg.defaultCloak && !c.inet6 && !c.ipSpoof) .crypthost .add = cloaked
    at hoper' hinvisible'
  have hfinal : (cloaked.putIf cfg.defaultInvisible .invisible .add).umodes .invisible
      = cfg.defaultInvisible := by
    cases cfg.defaultInvisible with
    | true => exact put_add cloaked.umodes .invisible
    | false => exact hinvisible'
  refine ⟨⟨?_, ?_, ?_⟩, rfl⟩
  · unfold Client.isUser
    rw [hc]
    show n.total + 1 = n.total - 0 + 1
    omega
  · unfold Client.isUserWith
    rw [hc]
    show n.oper = n.oper - 0 + one ((cloaked.putIf cfg.defaultInvisible .invisible .add).umodes .oper)
    rw [(putIf_spec cloaked _ .invisible _).2 .oper UMode.noConfusion, hoper']
    show n.oper = n.oper - 0 + 0
    omega
  · unfold Client.isUserWith
    rw [hc]
    show (if cfg.defaultInvisible then n.invisi + 1 else n.invisi) = n.invisi - 0 +
      one ((cloaked.putIf cfg.defaultInvisible .invisible .add).umodes .invisible)
    rw [hfinal]
    cases cfg.defaultInvisible with
    | true =>
      show n.invisi + 1 = n.invisi - 0 + 1
      omega
    | false =>
      show n.invisi = n.invisi - 0 + 0
      omega

/-- Letters of a remote user count the bits they set. -/
structure Counted (s s' : Client × Count) : Prop where
  total : s'.2.total = s.2.total
  oper : s'.2.oper - one (s'.1.umodes .oper) = s.2.oper - one (s.1.umodes .oper)
  invisi : s'.2.invisi - one (s'.1.umodes .invisible) = s.2.invisi - one (s.1.umodes .invisible)

/-- A counter and its bit, when a letter sets a mode that is sent. -/
theorem counted_bit (c : Client) {flag m : UMode} (hm : sendUmodes m = true) (k : Int) :
    (if flag = m ∧ c.umodes m = false then k + 1 else k)
        - one ((c.putIf (sendUmodes flag) flag .add).umodes m) = k - one (c.umodes m) := by
  by_cases heq : flag = m
  · subst heq
    have hnow : (c.putIf (sendUmodes flag) flag .add).umodes flag = true := by
      rw [hm]
      exact put_add ..
    rw [hnow]
    cases c.umodes flag with
    | true =>
      rw [if_neg fun h => Bool.false_ne_true h.2.symm]
    | false =>
      rw [if_pos ⟨rfl, rfl⟩]
      show k + 1 - 1 = k - 0
      omega
  · rw [if_neg fun h => heq h.1, (putIf_spec c _ flag _).2 m (Ne.symm heq)]

theorem registerLetter_counted (s : Client × Count) (letter : UInt8) :
    Counted s (registerLetter s letter) := by
  unfold registerLetter
  split
  · exact ⟨rfl, rfl, rfl⟩
  · split
    · exact ⟨rfl, rfl, rfl⟩
    · exact ⟨rfl, counted_bit s.1 rfl s.2.oper, counted_bit s.1 rfl s.2.invisi⟩

theorem registerLetter_foldl (letters : Bytes) : ∀ s : Client × Count,
    Counted s (letters.foldl registerLetter s) := by
  induction letters with
  | nil => exact fun s => ⟨rfl, rfl, rfl⟩
  | cons letter letters ih =>
    intro s
    have hone := registerLetter_counted s letter
    have hrest := ih (registerLetter s letter)
    exact ⟨hrest.total.trans hone.total, hrest.oper.trans hone.oper, hrest.invisi.trans hone.invisi⟩

/-- A remote user comes with its modes counted. -/
theorem registerModes_adds (ipSpoof service : Bool) (n : Count) (text : Bytes) :
    Adds (registerModes (newClient .unknown false ipSpoof false service) n text).1.setClient n
      (registerModes (newClient .unknown false ipSpoof false service) n text).2.registered := by
  have hcounted : Counted (newClient .unknown false ipSpoof false service, n)
      (registerModes (newClient .unknown false ipSpoof false service) n text) :=
    registerLetter_foldl (text.drop 1) _
  refine ⟨?_, ?_, ?_⟩
  · exact congrArg (· + 1) hcounted.total
  · have hoper := hcounted.oper
    show (registerModes (newClient .unknown false ipSpoof false service) n text).2.oper = n.oper +
      one ((registerModes (newClient .unknown false ipSpoof false service) n text).1.umodes .oper)
    have hnone : one ((newClient .unknown false ipSpoof false service).umodes .oper) = 0 := rfl
    rw [hnone] at hoper
    dsimp only at hoper
    omega
  · have hinvisi := hcounted.invisi
    show (registerModes (newClient .unknown false ipSpoof false service) n text).2.invisi = n.invisi +
      one ((registerModes (newClient .unknown false ipSpoof false service) n text).1.umodes .invisible)
    have hnone : one ((newClient .unknown false ipSpoof false service).umodes .invisible) = 0 := rfl
    rw [hnone] at hinvisi
    dsimp only at hinvisi
    omega

-- ============================================================================
-- Runs
-- ============================================================================

theorem Inv.start (me : Nat) : Inv me (start me) :=
  ⟨⟨rfl, rfl, rfl⟩, List.nodup_singleton me, List.mem_singleton_self me, rfl, fun _ h => by cases h⟩

theorem Inv.ne_me (h : Inv me s) (hx : (s.client x).status ≠ .me) : x ≠ me := fun heq =>
  hx (heq ▸ h.me_status)

/-- The clients that a split takes away, one after the other. -/
theorem Inv.netsplit (lost : List Nat) : ∀ {s : Net}, Inv me s →
    (∀ x ∈ lost, (s.client x).status ≠ .me) → Inv me (lost.foldl Net.removeClientFromList s) := by
  induction lost with
  | nil => exact fun h _ => h
  | cons x lost ih =>
    intro s h hlost
    obtain ⟨hx, hlost⟩ := List.forall_mem_cons.mp hlost
    have hsame : (s.removeClientFromList x).client = s.client := by
      unfold Net.removeClientFromList
      split <;> rfl
    refine ih (h.removeClientFromList hx) fun y hy => ?_
    rw [hsame]
    exact hlost y hy

/-- Every step keeps the counters exact. -/
theorem Inv.step (cfg : Config) {s s' : Net} {e : Event} (h : Inv me s)
    (hs : Umode.step cfg s e = some s') : Inv me s' := by
  cases e with
  | connect x ipSpoof inet6 =>
    simp only [Umode.step, Option.ite_none_left_eq_some, Option.some.injEq] at hs
    obtain ⟨hmem, rfl⟩ := hs
    exact h.add hmem ⟨(Int.add_zero _).symm, (Int.add_zero _).symm, (Int.add_zero _).symm⟩
      fun _ => ⟨rfl, rfl⟩
  | registerLocal x =>
    simp only [Umode.step, Option.ite_none_right_eq_some, Option.some.injEq] at hs
    obtain ⟨⟨hmem, hstatus⟩, rfl⟩ := hs
    obtain ⟨hoper, hinvisible⟩ := h.unknown x hstatus
    obtain ⟨hmoves, hclient⟩ := registerLocal_moves cfg hstatus hoper hinvisible s.count
    refine h.set hmem (h.ne_me ?_) hmoves ?_
    · rw [hstatus]
      exact Status.noConfusion
    · rw [hclient]
      exact Status.noConfusion
  | server x =>
    simp only [Umode.step, Option.ite_none_left_eq_some, Option.some.injEq] at hs
    obtain ⟨hmem, rfl⟩ := hs
    exact h.add hmem ⟨(Int.add_zero _).symm, (Int.add_zero _).symm, (Int.add_zero _).symm⟩
      Status.noConfusion
  | establish x =>
    simp only [Umode.step, Option.ite_none_right_eq_some, Option.some.injEq] at hs
    obtain ⟨⟨hmem, hstatus⟩, rfl⟩ := hs
    have hnone : ∀ m, (s.client x).isUserWith m = false := fun m => by
      rw [Client.isUserWith, hstatus]
      rfl
    refine h.set hmem (h.ne_me ?_) ⟨?_, ?_, ?_⟩ Status.noConfusion
    · rw [hstatus]
      exact Status.noConfusion
    · unfold Client.isUser
      rw [hstatus]
      exact (Int.sub_add_cancel s.count.total 0).symm
    · rw [hnone]
      exact (Int.sub_add_cancel s.count.oper 0).symm
    · rw [hnone]
      exact (Int.sub_add_cancel s.count.invisi 0).symm
  | registerClient x ipSpoof service text wrongDirection =>
    simp only [Umode.step, Option.ite_none_left_eq_some, Option.some.injEq] at hs
    obtain ⟨hmem, rfl⟩ := hs
    have hadd := h.add hmem (registerModes_adds ipSpoof service s.count text) Status.noConfusion
    split
    · refine hadd.removeClientFromList ?_
      have hself : ∀ c n, ((s.set x c n).addTail x).client x = c := fun c n => Function.update_self ..
      rw [hself]
      exact Status.noConfusion
    · exact hadd
  | mode clientP x args =>
    simp only [Umode.step, Option.ite_none_right_eq_some, Option.some.injEq] at hs
    obtain ⟨⟨hmem, hstatus⟩, rfl⟩ := hs
    obtain ⟨hmoves, hclient⟩ := userMode_moves cfg ((s.client clientP).status == .server) hstatus s.count args
    refine h.set hmem (h.ne_me ?_) hmoves ?_
    · rw [hstatus]
      exact Status.noConfusion
    · rw [hclient]
      exact Status.noConfusion
  | oper x conf =>
    simp only [Umode.step, Option.ite_none_right_eq_some] at hs
    obtain ⟨⟨hmem, hstatus⟩, hs⟩ := hs
    cases conf with
    | none =>
      cases hs
      exact h
    | some conf =>
      dsimp only at hs
      split at hs
      · cases hs
        exact h
      · next hoper =>
        cases hs
        obtain ⟨hmoves, hclient⟩ := operUp_moves cfg conf hstatus (Bool.eq_false_iff.mpr hoper) s.count
        refine h.set hmem (h.ne_me ?_) hmoves ?_
        · rw [hstatus]
          exact Status.noConfusion
        · rw [hclient]
          exact Status.noConfusion
  | exit x =>
    simp only [Umode.step, Option.ite_none_left_eq_some, Option.some.injEq] at hs
    obtain ⟨hme, rfl⟩ := hs
    exact h.removeClientFromList hme
  | netsplit lost =>
    simp only [Umode.step, Option.ite_none_left_eq_some, Option.some.injEq] at hs
    obtain ⟨hme, rfl⟩ := hs
    refine h.netsplit lost fun x hx hstatus => hme ?_
    exact List.any_eq_true.mpr ⟨x, hx, beq_iff_eq.mpr hstatus⟩

/-- In every state reached the counters are the numbers of the registered clients, of
    those with `UMODE_OPER` and of those with `UMODE_INVISIBLE`. -/
theorem counters_exact (cfg : Config) (me : Nat) (s : Net)
    (h : Reach (Umode.step cfg) anyStep (start me) s) :
    s.count.total = (s.globalClientList.filter fun x => (s.client x).status == .client).length ∧
    s.count.oper = (s.globalClientList.filter fun x =>
      (s.client x).status == .client && (s.client x).umodes .oper).length ∧
    s.count.invisi = (s.globalClientList.filter fun x =>
      (s.client x).status == .client && (s.client x).umodes .invisible).length := by
  have hinv : Inv me s := h.invariant (Inv.start me) fun _ _ _ hinv _ hs => hinv.step cfg hs
  obtain ⟨htotal, hoper, hinvisi⟩ := hinv.exact_
  rw [htotal, hoper, hinvisi]
  unfold tally
  rw [List.countP_eq_length_filter, List.countP_eq_length_filter, List.countP_eq_length_filter]
  exact ⟨rfl, rfl, rfl⟩

/-- A configuration with default modes. -/
def invisibleConfig : Config where
  operOnlyUmodes _ := false
  operUmodes _ := false
  defaultInvisible := true
  defaultCloak := true

/-- A local user registers and becomes visible, and a remote operator appears. -/
def smallRun : List Event :=
  [.connect 1 false false, .registerLocal 1, .mode 1 1 [[45, 105, 105]],
   .registerClient 2 false false [43, 105, 111, 105] false]

/-- The state after `smallRun`. -/
def smallNet : Net := smallRun.foldl (Reach.perform (Umode.step invisibleConfig)) (start 0)

theorem counters_exact_small :
    smallNet.count.total = (smallNet.globalClientList.filter fun x =>
      (smallNet.client x).status == .client).length ∧
    smallNet.count.oper = (smallNet.globalClientList.filter fun x =>
      (smallNet.client x).status == .client && (smallNet.client x).umodes .oper).length ∧
    smallNet.count.invisi = (smallNet.globalClientList.filter fun x =>
      (smallNet.client x).status == .client && (smallNet.client x).umodes .invisible).length ∧
    smallNet.count = ⟨2, 1, 1⟩ := by
  obtain ⟨htotal, hoper, hinvisi⟩ := counters_exact invisibleConfig 0 smallNet
    (Reach.performed_all smallRun Reach.init)
  exact ⟨htotal, hoper, hinvisi, by decide⟩

end Bluebox.Umode
