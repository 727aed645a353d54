/-
  Bluebox.Channel.Run

  What a step of the server does to the channel table: channels are created,
  destroyed and updated, nothing else.  From this, an invariant of single
  channels that new channels have and updates keep holds of every channel in
  every state reached.
-/
import Bluebox.Channel.Server

namespace Bluebox.Chan

open Bluebox.Lib

-- ============================================================================
-- Changes of the table
-- ============================================================================

/-- The elementary changes of the channel table. -/
inductive Change (cfg : Config) (client : Nat → Option Client) (ok : Client → Bytes → Prop) :
    Table → Table → Prop
  | create {t : Table} (s : Bytes) (now : Int) (hs : checkChannelName s = true)
      (hl : t.lookup s = none) :
      Change cfg client ok t (t.add s now)
  | destroy {t : Table} (p : Nat) : Change cfg client ok t (destroyChannel t p)
  | each {t : Table} (f : Nat → Channel) (h : ∀ p, Updates cfg client ok (t.chan p) (f p)) :
      Change cfg client ok t { t with chan := f }

/-- Any number of them. -/
abbrev Changes (cfg : Config) (client : Nat → Option Client) (ok : Client → Bytes → Prop) :
    Table → Table → Prop :=
  Relation.ReflTransGen (Change cfg client ok)

section Changes

variable {cfg : Config} {client : Nat → Option Client} {ok : Client → Bytes → Prop}
variable {t t' : Table}

/-- Updating one channel is a change. -/
theorem Change.update (p : Nat) {ch : Channel} (h : Updates cfg client ok (t.chan p) ch) :
    Change cfg client ok t (t.setChan p ch) := by
  refine .each _ fun q => ?_
  by_cases hq : q = p
  · subst hq
    rw [Function.update_self]
    exact h
  · rw [Function.update_of_ne hq]

theorem TableOk.each (h : TableOk t) {f : Nat → Channel}
    (hf : ∀ p, (f p).chname = (t.chan p).chname) : TableOk { t with chan := f } where
  nodup := h.nodup
  allocated := h.allocated
  bucket_nodup := h.bucket_nodup
  mem_bucket k p := by
    rw [h.mem_bucket, hf]
  noNul p hp := by
    rw [hf]
    exact h.noNul p hp
  length_lt p hp := by
    rw [hf]
    exact h.length_lt p hp

theorem Changes.tableOk (h : Changes cfg client ok t t') (hok : TableOk t) : TableOk t' := by
  induction h with
  | refl => exact hok
  | tail _ hc ih =>
    cases hc with
    | create s now hs hl => exact ih.add (noNul_of_checkChannelName hs) now
    | destroy p => exact ih.destroy
    | each f hf => exact ih.each fun p => (hf p).chname

/-- What new channels have and updates keep, all channels have. -/
theorem Changes.forall_chan {P : Channel → Prop}
    (hnew : ∀ s now, checkChannelName s = true → P (allocateChannel s now))
    (hupd : ∀ ch ch', Update cfg client ok ch ch' → P ch → P ch')
    (h : Changes cfg client ok t t') (hp : ∀ p, P (t.chan p)) : ∀ p, P (t'.chan p) := by
  induction h with
  | refl => exact hp
  | @tail v _ _ hc ih =>
    cases hc with
    | create s now hs hl =>
      intro p
      by_cases hpn : p = v.next
      · subst hpn
        simp only [Table.chan_add]
        exact hnew s now hs
      · simp only [Table.add, Function.update_of_ne hpn]
        exact ih p
    | destroy => exact ih
    | each f hf => exact fun p => (hf p).invariant hupd (ih p)

theorem lookupName_check {chname : Bytes} (h : checkChannelName chname = true) :
    checkChannelName (lookupName chname) = true := by
  unfold lookupName
  split
  · exact List.all_eq_true.mpr fun b hb => List.all_eq_true.mp h b (List.mem_of_mem_take hb)
  · exact h

theorem getOrCreate_changes {chname : Bytes} (hs : checkChannelName chname = true) (now : Int) :
    Changes cfg client ok t (getOrCreateChannel t chname now).1 := by
  obtain heq | ⟨hnone, heq⟩ := getOrCreateChannel_fst t chname now
  · rw [heq]
  · rw [heq]
    exact .single (.create _ now (lookupName_check hs) hnone)

theorem removeUserFromChannel_changes (t : Table) (p c : Nat) :
    Changes cfg client ok t (removeUserFromChannel t p c) := by
  unfold removeUserFromChannel
  dsimp only
  have hleave : Change cfg client ok t (t.setChan p
      { t.chan p with members := (t.chan p).members.filter fun m => m.clientP != c }) :=
    .update p (.single (.leave c))
  split
  · exact .tail (.single hleave) (.destroy p)
  · exact .single hleave

theorem removeUserFromChannels_changes (t : Table) (c : Nat) :
    Changes cfg client ok t (removeUserFromChannels t c) := by
  unfold removeUserFromChannels
  generalize t.globalChannelList.filter (fun p => (t.chan p).isMember c) = l
  induction l generalizing t with
  | nil => exact .refl
  | cons p l ih =>
    rw [List.foldl_cons]
    exact (removeUserFromChannel_changes t p c).trans (ih _)

end Changes

-- ============================================================================
-- Commands
-- ============================================================================

/-- What a step does to the clients. -/
inductive ClientStep (srv srv' : Server) : Prop
  | same (hc : srv'.clients = srv.clients) (hn : srv'.nextClient = srv.nextClient)
  | introduce (cl : Client) (hwf : cl.wellFormed = true)
      (hc : srv'.clients = (srv.nextClient, cl) :: srv.clients)
      (hn : srv'.nextClient = srv.nextClient + 1)
  | exit (c : Nat) (hc : srv'.clients = srv.clients.filter fun x => x.1 != c)
      (hn : srv'.nextClient = srv.nextClient)
  | rename (c : Nat) (cl : Client) (nick : Bytes) (hcl : srv.client c = some cl)
      (huser : cl.isClient = true) (hnick : validNick nick = true)
      (h : srv' = changeNick srv c cl nick)

section Commands

variable {cfg : Config} {ok : Client → Bytes → Prop} {srv : Server}

/-- A channel that was not found and has just been made has no members. -/
theorem isMember_new {t : Table} {s : Bytes} {now : Int} (c : Nat) :
    ((t.add s now).chan t.next).isMember c = false := by
  simp [Table.add, allocateChannel, Channel.isMember, Channel.findMembership]

theorem mJoin_changes {c : Nat} {source : Client} {name key : Bytes} {permitted invited : Bool}
    {now : Int} (hc : (srv.client c).isSome) :
    Changes cfg srv.client ok srv.table
      (mJoin cfg srv c source name key permitted invited now).table := by
  unfold mJoin
  split
  · exact .refl
  · rename_i hname
    simp only [Bool.or_eq_true, not_or, Bool.not_eq_true', Bool.not_eq_false, decide_eq_true_eq] at hname
    obtain ⟨⟨⟨hcheck, hlen⟩, -⟩, -⟩ := hname
    split
    · split
      · exact .refl
      · rename_i p _ hm
        split
        · exact .single (.update p (enterLocal_updates (by simpa using hm) hc))
        · exact .refl
    · rename_i hfind
      unfold findChannel at hfind
      have hcut : lookupName name = name := lookupName_of_lt (by
        unfold locChannelLen at hlen
        unfold channelLen
        omega)
      by_cases hnil : name = []
      · rw [getOrCreateChannel, if_pos hnil]
      · rw [if_neg hnil] at hfind
        simp only [getOrCreateChannel_new hnil (hcut ▸ hfind), hcut]
        have hcreate : Change cfg srv.client ok srv.table (srv.table.add name now) :=
          .create name now hcheck hfind
        split
        · exact .tail (.single hcreate) (.update _ (enterLocal_updates (isMember_new c) hc))
        · exact .single hcreate

theorem msJoin_changes {c : Nat} {ts name : Bytes} {now : Int} (hc : (srv.client c).isSome) :
    Changes cfg srv.client ok srv.table (msJoin srv c ts name now).table := by
  unfold msJoin
  split
  · exact .refl
  · rename_i hname
    simp only [Bool.or_eq_true, not_or, Bool.not_eq_true', Bool.not_eq_false] at hname
    have hcreate : Changes cfg srv.client ok srv.table (getOrCreateChannel srv.table name now).1 :=
      getOrCreate_changes hname.1.2 now
    split
    · exact .refl
    · rename_i t p isnew heq
      rw [heq] at hcreate
      exact .tail hcreate (.update p (enterRemote_updates hc))

theorem sjoinParse_valid {m : Sjoin} {mode : Mode} {users : Bytes} (hwf : m.wellFormed = true)
    (h : sjoinParse m = some (mode, users)) :
    mode.Valid ∧ checkChannelName m.name = true := by
  unfold Sjoin.wellFormed at hwf
  rw [Bool.and_eq_true, List.all_eq_true, List.all_eq_true] at hwf
  have hnul : ∀ t ∈ m.params, NoNul t := fun t ht => by simpa [NoNul] using hwf.1 t ht
  have hspace : ∀ t ∈ m.params.dropLast, (32 : UInt8) ∉ t := fun t ht => by
    simpa using hwf.2 t ht
  unfold sjoinParse at h
  split at h
  · cases h
  · split at h
    · cases h
    · rename_i hname
      simp only [Bool.or_eq_true, not_or, Bool.not_eq_true', Bool.not_eq_false] at hname
      split at h
      · cases h
      · rename_i mode' args heq
        dsimp only at h
        split at h
        · cases h
        · obtain ⟨rfl, -⟩ := Prod.mk.inj (Option.some.inj h)
          exact ⟨sjoinModes_valid hnul hspace _ Mode.valid_none heq, hname.1.2⟩

theorem msSjoin_changes {m : Sjoin} {now : Int} (hwf : m.wellFormed = true) :
    Changes cfg srv.client ok srv.table (msSjoin srv m now).table := by
  unfold msSjoin
  split
  · exact .refl
  · rename_i mode users hparse
    obtain ⟨hvalid, hcheck⟩ := sjoinParse_valid hwf hparse
    have hcreate : Changes cfg srv.client ok srv.table
        (getOrCreateChannel srv.table m.name now).1 := getOrCreate_changes hcheck now
    split
    · exact .refl
    · rename_i t p isnew heq
      rw [heq] at hcreate
      have hset : Changes cfg srv.client ok srv.table
          (t.setChan p (sjoinChannel srv m isnew (atol m.ts) mode users (t.chan p)).1) :=
        hcreate.tail (.update p (sjoinChannel_updates hvalid))
      dsimp only
      split
      · exact hset.tail (.destroy p)
      · exact hset

theorem runMode_changes {srv' : Server} {target : Option (Nat × Call)}
    (hcall : ∀ p call, target = some (p, call) → call.cfg = cfg ∧ (∀ t ∈ call.parv, NoNul t) ∧
      LettersOk ok call (call.parv.getD 0 []) (Walk.start (srv.table.chan p)))
    (h : runMode srv target = some srv') :
    Changes cfg srv.client ok srv.table srv'.table ∧ ClientStep srv srv' := by
  cases target with
  | none =>
    obtain rfl := Option.some.inj h
    exact ⟨.refl, .same rfl rfl⟩
  | some pc =>
    obtain ⟨p, call⟩ := pc
    obtain ⟨hcfg, hparv, hok⟩ := hcall p call rfl
    unfold runMode setChannelMode at h
    rw [Option.map_eq_some_iff] at h
    obtain ⟨w, hw, rfl⟩ := h
    exact ⟨.single (.update p (letters_updates hcfg hparv _ hok hw)), .same rfl rfl⟩

theorem canSend_updates {client : Nat → Option Client} {ch : Channel} {c : Nat} {cl : Client}
    (hc : client c = some cl) : Updates cfg client ok ch (canSend cfg ch c cl).1 := by
  unfold canSend
  split
  · exact .refl
  · split
    · exact .refl
    · split
      · split <;> exact .refl
      · split
        · exact .refl
        · split
          · exact .refl
          · split
            · split
              · exact .refl
              · exact .single (.cache c cl hc)
            · exact .refl

end Commands

-- ============================================================================
-- Steps and runs
-- ============================================================================

section Steps

variable {cfg : Config} {ok : Client → Bytes → Prop} {srv srv' : Server}

theorem Server.withClient_eq_some {c : Nat} {f : Client → Option Server}
    (h : srv.withClient c f = some srv') : ∃ cl, srv.client c = some cl ∧ f cl = some srv' :=
  Option.bind_eq_some_iff.mp h

theorem changeNick_changes (srv : Server) (c : Nat) (cl : Client) (nick : Bytes) :
    Changes cfg srv.client ok srv.table (changeNick srv c cl nick).table := by
  show Changes cfg srv.client ok srv.table (if _ then invalidateBancacheUser srv.table c else srv.table)
  split
  · exact .single (.each _ fun p => .single (.forget c))
  · exact .refl

theorem ModeArgs.wellFormed_noNul {a : ModeArgs} (h : a.wellFormed = true) :
    ∀ t ∈ a.parv, NoNul t := fun t ht => by
  simpa [NoNul] using List.all_eq_true.mp h t ht

/-- What the mode commands call `set_channel_mode` with. -/
theorem mMode_call {source : Client} {dest : Bytes} {a : ModeArgs} {p : Nat} {call : Call}
    (h : mMode cfg srv source dest a = some (p, call)) :
    ∃ msptr, call = modeCall cfg srv source msptr a := by
  unfold mMode at h
  split at h
  · cases h
  · split at h
    · cases h
    · dsimp only at h
      split at h
      · cases h
      · exact ⟨_, (Prod.mk.inj (Option.some.inj h)).2.symm⟩

theorem msMode_call {source : Client} {dest : Bytes} {a : ModeArgs} {p : Nat} {call : Call}
    (h : msMode cfg srv source dest a = some (p, call)) :
    ∃ msptr, call = modeCall cfg srv source msptr a := by
  unfold msMode at h
  obtain ⟨q, -, hq⟩ := Option.map_eq_some_iff.mp h
  exact ⟨_, (Prod.mk.inj hq).2.symm⟩

theorem msTmode_call {source : Client} {ts dest : Bytes} {a : ModeArgs} {p : Nat} {call : Call}
    (h : msTmode cfg srv source ts dest a = some (p, call)) :
    ∃ msptr, call = modeCall cfg srv source msptr a := by
  unfold msTmode at h
  split at h
  · cases h
  · split at h
    · cases h
    · split at h
      · cases h
      · split at h
        · exact ⟨_, (Prod.mk.inj (Option.some.inj h)).2.symm⟩
        · dsimp only at h
          split at h
          · cases h
          · exact ⟨_, (Prod.mk.inj (Option.some.inj h)).2.symm⟩

theorem splitOn_subset {x : UInt8} (s : Bytes) : ∀ l ∈ s.splitOn x, l ⊆ s := by
  induction s with
  | nil =>
    intro l hl
    rw [List.splitOn_nil, List.mem_singleton] at hl
    exact hl ▸ List.Subset.refl _
  | cons a s ih =>
    intro l hl
    rw [List.splitOn_cons_eq_if_modifyHead] at hl
    split at hl
    · rcases List.mem_cons.mp hl with rfl | hl
      · exact List.nil_subset _
      · exact fun y hy => List.mem_cons_of_mem _ (ih l hl hy)
    · cases hsplit : s.splitOn x with
      | nil => exact absurd hsplit (List.splitOn_ne_nil x s)
      | cons h t =>
        rw [hsplit] at hl ih
        rcases List.mem_cons.mp hl with rfl | hl
        · exact List.cons_subset_cons a (ih h List.mem_cons_self)
        · exact fun y hy => List.mem_cons_of_mem _ (ih l (List.mem_cons_of_mem _ hl) hy)

theorem bmaskMasks_noNul {s : Bytes} (h : NoNul s) : ∀ mask ∈ bmaskMasks s, NoNul mask :=
  fun mask hmask => noNul_of_subset h (splitOn_subset s mask
    (List.mem_of_mem_filter (List.takeWhile_subset _ (List.mem_of_mem_filter hmask))))

theorem mJoin_clients {c : Nat} {source : Client} {name key : Bytes} {permitted invited : Bool}
    {now : Int} : ClientStep srv (mJoin cfg srv c source name key permitted invited now) := by
  unfold mJoin
  repeat' split
  all_goals exact .same rfl rfl

theorem msJoin_clients {c : Nat} {ts name : Bytes} {now : Int} :
    ClientStep srv (msJoin srv c ts name now) := by
  unfold msJoin
  repeat' split
  all_goals exact .same rfl rfl

theorem msSjoin_clients {m : Sjoin} {now : Int} : ClientStep srv (msSjoin srv m now) := by
  unfold msSjoin
  repeat' split
  all_goals exact .same rfl rfl

/-- Every step changes the table by creating, destroying and updating channels. -/
theorem step_cases {a : Action} (hok : a.MasksOk cfg ok srv) (h : srv.step cfg a = some srv') :
    Changes cfg srv.client ok srv.table srv'.table ∧ ClientStep srv srv' := by
  cases a with
  | introduce cl =>
    simp only [Server.step] at h
    split at h
    · rename_i hwf
      obtain rfl := Option.some.inj h
      exact ⟨.refl, .introduce cl hwf rfl rfl⟩
    · cases h
  | exit c =>
    obtain ⟨cl, -, h⟩ := Server.withClient_eq_some h
    obtain rfl := Option.some.inj h
    exact ⟨removeUserFromChannels_changes _ c, .exit c rfl rfl⟩
  | join c name key permitted invited now =>
    obtain ⟨cl, hcl, h⟩ := Server.withClient_eq_some h
    split at h
    · obtain rfl := Option.some.inj h
      exact ⟨mJoin_changes (by rw [hcl]; rfl), mJoin_clients⟩
    · cases h
  | joinZero c =>
    obtain ⟨cl, -, h⟩ := Server.withClient_eq_some h
    obtain rfl := Option.some.inj h
    exact ⟨removeUserFromChannels_changes _ c, .same rfl rfl⟩
  | part c p =>
    simp only [Server.step] at h
    split at h
    · obtain rfl := Option.some.inj h
      exact ⟨removeUserFromChannel_changes _ p c, .same rfl rfl⟩
    · cases h
  | remoteJoin c ts name now =>
    obtain ⟨cl, hcl, h⟩ := Server.withClient_eq_some h
    split at h
    · obtain rfl := Option.some.inj h
      exact ⟨msJoin_changes (by rw [hcl]; rfl), msJoin_clients⟩
    · cases h
  | sjoin m now =>
    simp only [Server.step] at h
    split at h
    · rename_i hwf
      obtain rfl := Option.some.inj h
      exact ⟨msSjoin_changes hwf, msSjoin_clients⟩
    · cases h
  | mode dest a =>
    obtain ⟨cl, hcl, h⟩ := Server.withClient_eq_some h
    split at h
    · rename_i hwf
      rw [Bool.and_eq_true] at hwf
      refine runMode_changes (fun p call hcall => ?_) h
      obtain ⟨msptr, rfl⟩ := mMode_call hcall
      exact ⟨rfl, ModeArgs.wellFormed_noNul hwf.2, hok cl p _ hcl hcall⟩
    · cases h
  | serverMode dest a =>
    obtain ⟨cl, hcl, h⟩ := Server.withClient_eq_some h
    split at h
    · rename_i hwf
      rw [Bool.and_eq_true] at hwf
      refine runMode_changes (fun p call hcall => ?_) h
      obtain ⟨msptr, rfl⟩ := msMode_call hcall
      exact ⟨rfl, ModeArgs.wellFormed_noNul hwf.2, hok cl p _ hcl hcall⟩
    · cases h
  | tmode ts dest a =>
    obtain ⟨cl, hcl, h⟩ := Server.withClient_eq_some h
    split at h
    · rename_i hwf
      rw [Bool.and_eq_true] at hwf
      refine runMode_changes (fun p call hcall => ?_) h
      obtain ⟨msptr, rfl⟩ := msTmode_call hcall
      exact ⟨rfl, ModeArgs.wellFormed_noNul hwf.2, hok cl p _ hcl hcall⟩
    · cases h
  | bmask c ts dest letter masks now =>
    obtain ⟨cl, hcl, h⟩ := Server.withClient_eq_some h
    split at h
    · rename_i hwf
      rw [Bool.and_eq_true] at hwf
      have hnul : NoNul masks := by simpa [NoNul] using hwf.2
      have hremote : cl.myClient = false := by simp [Client.myClient, Client.isClient, hwf.1]
      split at h
      · obtain rfl := Option.some.inj h
        exact ⟨.refl, .same rfl rfl⟩
      · rename_i p k htarget
        obtain rfl := Option.some.inj h
        refine ⟨.single (.update p (bmaskWalk_updates _ hremote (bmaskMasks_noNul hnul) ?_ _)), .same rfl rfl⟩
        exact hok cl hcl (by rw [htarget]; exact Option.some_ne_none _)
    · cases h
  | nick c nick =>
    obtain ⟨cl, hcl, h⟩ := Server.withClient_eq_some h
    split at h
    · rename_i hwf
      rw [Bool.and_eq_true] at hwf
      obtain rfl := Option.some.inj h
      exact ⟨changeNick_changes srv c cl nick, .rename c cl nick hcl hwf.1 hwf.2 rfl⟩
    · cases h
  | send c p =>
    obtain ⟨cl, hcl, h⟩ := Server.withClient_eq_some h
    split at h
    · obtain rfl := Option.some.inj h
      exact ⟨.single (.update p (canSend_updates hcl)), .same rfl rfl⟩
    · cases h

/-- No mask is forbidden. -/
def anyMask (_ : Client) (_ : Bytes) : Prop := True

/-- The runs in which only allowed masks reach `add_id`. -/
abbrev Server.Reachable (cfg : Config) (ok : Client → Bytes → Prop) (srv : Server) : Prop :=
  Reach (Server.step cfg) (fun s a => a.MasksOk cfg ok s) Server.start srv

theorem masksOk_anyMask (cfg : Config) (srv : Server) (a : Action) :
    a.MasksOk cfg anyMask srv := by
  cases a with
  | mode => exact fun _ _ _ _ _ => lettersOk_of_forall (fun _ => trivial) _ _
  | serverMode => exact fun _ _ _ _ _ => lettersOk_of_forall (fun _ => trivial) _ _
  | tmode => exact fun _ _ _ _ _ => lettersOk_of_forall (fun _ => trivial) _ _
  | bmask => exact fun _ _ _ _ _ => trivial
  | _ => exact trivial

/-- Every run is one of them when no mask is forbidden. -/
theorem Server.reachable_of_run (h : Reach (Server.step cfg) anyStep Server.start srv) :
    srv.Reachable cfg anyMask := by
  induction h with
  | init => exact .init
  | next _ _ hs ih => exact .next ih (masksOk_anyMask cfg _ _) hs

theorem Server.Reachable.tableOk (h : srv.Reachable cfg ok) : TableOk srv.table := by
  refine Reach.invariant (P := fun s : Server => TableOk s.table) tableOk_start ?_ h
  intro s a s' hs hok hstep
  exact (step_cases hok hstep).1.tableOk hs

/-- What new channels have and updates keep holds of every channel reached. -/
theorem Server.Reachable.forall_chan {P : Channel → Prop}
    (hnew : ∀ s now, checkChannelName s = true → P (allocateChannel s now))
    (hupd : ∀ client ch ch', Update cfg client ok ch ch' → P ch → P ch')
    (h : srv.Reachable cfg ok) : ∀ p, P (srv.table.chan p) := by
  refine Reach.invariant (P := fun s : Server => ∀ p, P (s.table.chan p)) (fun _ => hnew [] 0 rfl) ?_ h
  intro s a s' hs hok hstep
  exact (step_cases hok hstep).1.forall_chan hnew (hupd s.client) hs

end Steps

-- ============================================================================
-- A configuration and clients for concrete runs
-- ============================================================================

/-- All lists in use, no reserved names, and no address matches a mask. -/
def plainConfig : Config := ⟨100, true, true, true, true, fun _ => false, fun _ _ _ _ => false⟩

/-- The user `bob`, behind link 1. -/
def bob : Client where
  name := [98, 111, 98]
  username := [98]
  host := [104]
  virthost := [104]
  sockhost := [49]
  id := [49, 65, 65, 65, 65, 65, 65, 65, 65]
  link := 1
  suser := []
  isServer := false
  myConnect := false
  cloaked := false
  service := false
  oper := false
  exemptResv := false
  ssl := false

/-- A local user. -/
def alice : Client := { bob with
  name := [97, 108, 105, 99, 101], id := [48, 65, 65, 65, 65, 65, 65, 65, 65], link := 0,
  myConnect := true }

/-- The server `bob` is on. -/
def hub : Client := { bob with name := [104, 117, 98], id := [49, 65, 65], isServer := true }

end Bluebox.Chan
