/-
  Bluebox.Channel.Limit

  The limit of a channel.  `chm_limit` takes positive limits only, and where the
  modes of two sides are joined the larger limit wins, so a limit could only be
  negative if it came from nowhere but an `SJOIN`.  An `SJOIN` with the lower
  time stamp is just that: its modes replace those of the channel, and its limit
  is the `atoi` of whatever the other server sent.
-/
import Bluebox.Channel.Merge

namespace Bluebox.Limit

open Bluebox.Lib Bluebox.Chan

-- ============================================================================
-- When the modes of an SJOIN replace those of the channel
-- ============================================================================

/-- The message wins the channel by its time stamp. -/
def Wins (srv : Server) (m : Sjoin) (p : Nat) : Prop :=
  srv.table.lookup (lookupName m.name) = some p ∧ atol m.ts ≠ 0 ∧
    (srv.table.chan p).channelts ≠ 0 ∧ atol m.ts < (srv.table.chan p).channelts

/-- An `SJOIN` that wins an existing channel has no negative limit. -/
def LimitOk (srv : Server) : Action → Prop
  | .sjoin m _ => ∀ mode users p, sjoinParse m = some (mode, users) → Wins srv m p → 0 ≤ mode.limit
  | _ => True

-- ============================================================================
-- The mode handlers
-- ============================================================================

section Handlers

variable {call : Call} {c : UInt8} {w w' : Walk}

theorem chmSimple_limit (modeType : UInt32) (halfop : Bool) :
    (chmSimple call c modeType halfop w).ch.mode.limit = w.ch.mode.limit := by
  have hch : (w.count call (9 + maxModeParams)).1.ch = w.ch := Walk.count_ch ..
  unfold chmSimple
  split
  · rfl
  · generalize w.count call (9 + maxModeParams) = r at hch
    obtain ⟨v, full⟩ := r
    dsimp only at hch ⊢
    rw [← hch]
    split
    · rfl
    · split
      · rfl
      · split <;> rfl

theorem chmRegonly_limit : (chmRegonly call c w).ch.mode.limit = w.ch.mode.limit := by
  unfold chmRegonly
  split
  · rfl
  · split
    · rfl
    · split <;> rfl
    · split <;> rfl

theorem chmSslonly_limit : (chmSslonly call c w).ch.mode.limit = w.ch.mode.limit := by
  unfold chmSslonly
  split
  · rfl
  · split
    · rfl
    · split
      · rfl
      · split <;> rfl
    · split <;> rfl

theorem chmKey_limit : (chmKey call c w).ch.mode.limit = w.ch.mode.limit := by
  unfold chmKey
  split
  · rfl
  · split
    · rfl
    · split
      · dsimp only
        generalize (if call.source.myClient = true then fixKey (w.arg call)
          else fixKeyRemote (w.arg call)) = key
        split <;> rfl
      · rfl
    · have hch : (if w.parn < call.parv.length then { w with parn := w.parn + 1 } else w).ch = w.ch := by
        split <;> rfl
      generalize (if w.parn < call.parv.length then { w with parn := w.parn + 1 } else w) = v at hch
      dsimp only
      rw [← hch]
      split <;> rfl

theorem chmStatus_limit (st : StatusMode) :
    (chmStatus st call c w).ch.mode.limit = w.ch.mode.limit := by
  unfold chmStatus
  split
  · rfl
  · split
    · rfl
    · dsimp only
      split
      · rfl
      · split
        · rfl
        · split
          · rfl
          · have hch := Walk.count_ch { w with parn := w.parn + 1 } call maxModeParams
            generalize Walk.count { w with parn := w.parn + 1 } call maxModeParams = r at hch
            obtain ⟨v, full⟩ := r
            dsimp only at hch ⊢
            rw [← hch]
            split
            · rfl
            · split
              · split <;> rfl
              · split
                · rfl
                · split <;> rfl

/-- The one handler that writes the limit writes no negative one. -/
theorem chmLimit_limit (h : 0 ≤ w.ch.mode.limit) : 0 ≤ (chmLimit call c w).ch.mode.limit := by
  unfold chmLimit
  split
  · exact h
  · split
    · exact h
    · split
      · dsimp only
        split
        · exact h
        · rename_i hpos
          rw [not_or] at hpos
          show 0 ≤ atoi (w.arg call)
          omega
      · exact h
    · split
      · exact h
      · exact Int.le_refl 0

theorem modeTable_limit (h : 0 ≤ w.ch.mode.limit) : 0 ≤ (modeTable call c w).ch.mode.limit := by
  unfold modeTable
  split
  · rwa [chmSslonly_limit]
  · rwa [chmHalfop, chmStatus_limit]
  · rwa [chmSimple_limit]
  · rwa [chmKey_limit]
  · exact chmLimit_limit h
  · rwa [chmSimple_limit]
  · rwa [chmSimple_limit]
  · rwa [chmOp, chmStatus_limit]
  · rwa [chmSimple_limit]
  · rwa [chmRegonly_limit]
  · rwa [chmSimple_limit]
  · rwa [chmSimple_limit]
  · rwa [chmVoice, chmStatus_limit]
  · rwa [chmSimple_limit]
  · exact h

theorem addId_mode {cfg : Config} {ch ch' : Channel} {source : Client} {mask : Bytes} {k : BanType}
    {now : Int} (h : addId cfg ch source mask k now = some ch') : ch'.mode = ch.mode := by
  obtain ⟨-, rfl⟩ := addId_eq_some h
  exact mode_setList_bumpFor ..

theorem delId_mode {ch ch' : Channel} {mask : Bytes} {k : BanType}
    (h : delId ch mask k = some ch') : ch'.mode = ch.mode := by
  rw [delId_eq_some h]
  exact mode_setList_bumpFor ..

theorem applyBan_mode (k : BanType) (mask raw : Bytes) :
    (applyBan call c k w mask raw).ch.mode = w.ch.mode := by
  unfold applyBan
  by_cases hdir : w.dir = .add
  · rw [if_pos hdir]
    split
    · rfl
    · rename_i ch heq
      exact addId_mode heq
  · rw [if_neg hdir]
    split
    · rename_i ch heq
      exact delId_mode heq
    · split
      · rename_i ch heq
        exact delId_mode heq
      · rfl

theorem chmBan_mode {k : BanType} (hparv : ∀ t ∈ call.parv, NoNul t)
    (h : chmBan call c k w = some w') : w'.ch.mode = w.ch.mode := by
  unfold chmBan at h
  split at h
  · cases h
  · rename_i v heq
    obtain rfl := Option.some.inj h
    rw [(banRequest_spec hparv heq).1]
  · rename_i v mask raw heq
    obtain rfl := Option.some.inj h
    rw [applyBan_mode, (banRequest_spec hparv heq).1]

theorem letterStep_limit (hparv : ∀ t ∈ call.parv, NoNul t) (hstep : letterStep call c w = some w')
    (h : 0 ≤ w.ch.mode.limit) : 0 ≤ w'.ch.mode.limit := by
  unfold letterStep at hstep
  split at hstep
  · obtain rfl := Option.some.inj hstep
    exact h
  · split at hstep
    · obtain rfl := Option.some.inj hstep
      exact h
    · split at hstep
      · obtain rfl := Option.some.inj hstep
        exact h
      · split at hstep
        · rw [chmBan_mode hparv hstep]
          exact h
        · obtain rfl := Option.some.inj hstep
          exact modeTable_limit h

theorem letters_limit (hparv : ∀ t ∈ call.parv, NoNul t) (cs : Bytes) : ∀ {w w' : Walk},
    letters call cs w = some w' → 0 ≤ w.ch.mode.limit → 0 ≤ w'.ch.mode.limit := by
  induction cs with
  | nil =>
    intro w w' hrun h
    obtain rfl := Option.some.inj hrun
    exact h
  | cons c cs ih =>
    intro w w' hrun h
    rw [letters] at hrun
    split at hrun
    · cases hrun
    · rename_i v hv
      exact ih hrun (letterStep_limit hparv hv h)

end Handlers

-- ============================================================================
-- Joining and leaving
-- ============================================================================

/-- No channel of the table has a negative limit. -/
def NonNeg (t : Table) : Prop := ∀ p, 0 ≤ (t.chan p).mode.limit

section Tables

variable {t : Table}

theorem NonNeg.setChan (h : NonNeg t) {ch : Channel} (hch : 0 ≤ ch.mode.limit) (p : Nat) :
    NonNeg (t.setChan p ch) := by
  intro q
  by_cases hq : q = p
  · subst hq
    rw [Table.chan_setChan]
    exact hch
  · simp only [Table.setChan, Function.update_of_ne hq]
    exact h q

theorem NonNeg.getOrCreate (h : NonNeg t) (name : Bytes) (now : Int) :
    NonNeg (getOrCreateChannel t name now).1 := by
  obtain heq | ⟨-, heq⟩ := getOrCreateChannel_fst t name now
  · rw [heq]
    exact h
  · rw [heq]
    intro q
    by_cases hq : q = t.next
    · subst hq
      rw [Table.chan_add]
      exact Int.le_refl 0
    · rw [Table.chan_add_of_ne hq]
      exact h q

theorem NonNeg.removeUserFromChannel (h : NonNeg t) (p c : Nat) :
    NonNeg (removeUserFromChannel t p c) := by
  have hset : NonNeg (t.setChan p
      { t.chan p with members := (t.chan p).members.filter fun m => m.clientP != c }) := by
    refine h.setChan ?_ p
    exact h p
  unfold Chan.removeUserFromChannel
  dsimp only
  split
  · exact fun q => hset q
  · exact hset

theorem NonNeg.removeUserFromChannels (h : NonNeg t) (c : Nat) :
    NonNeg (removeUserFromChannels t c) := by
  unfold Chan.removeUserFromChannels
  generalize t.globalChannelList.filter (fun p => (t.chan p).isMember c) = l
  induction l generalizing t with
  | nil => exact h
  | cons p l ih =>
    rw [List.foldl_cons]
    exact ih (h.removeUserFromChannel p c)

theorem enterLocal_limit (ch : Channel) (c : Nat) (now : Int) :
    (enterLocal ch c now).mode.limit = ch.mode.limit := by
  unfold enterLocal
  split <;> rfl

theorem enterRemote_limit {ch : Channel} (h : 0 ≤ ch.mode.limit) (isnew : Bool) (newts : Int)
    (c : Nat) : 0 ≤ (enterRemote isnew newts c ch).mode.limit := by
  unfold enterRemote
  generalize tsCompare isnew ch.channelts newts = o
  dsimp only
  have hmode : 0 ≤ (if o.keepOurModes = true then { ch with channelts := o.ts }
      else { removeOurModes { ch with channelts := o.ts } with mode := Mode.none }).mode.limit := by
    split
    · exact h
    · exact Int.le_refl 0
  generalize (if o.keepOurModes = true then { ch with channelts := o.ts }
    else { removeOurModes { ch with channelts := o.ts } with mode := Mode.none }) = v at hmode
  split
  · exact hmode
  · exact hmode

theorem bmaskWalk_mode (cfg : Config) (source : Client) (k : BanType) (now : Int)
    (masks : List Bytes) : ∀ ch, (bmaskWalk cfg source k now ch masks).mode = ch.mode := by
  induction masks with
  | nil => exact fun _ => rfl
  | cons mask masks ih =>
    intro ch
    unfold bmaskWalk at ih ⊢
    rw [List.foldl_cons, ih]
    cases hadd : addId cfg ch source mask k now with
    | none => rfl
    | some ch' => exact addId_mode hadd

theorem canSend_mode (cfg : Config) (ch : Channel) (c : Nat) (cl : Client) :
    (canSend cfg ch c cl).1.mode = ch.mode := by
  unfold canSend
  repeat' split
  all_goals rfl

end Tables

-- ============================================================================
-- SJOIN
-- ============================================================================

section Sjoins

variable {srv : Server} {m : Sjoin}

/-- The modes of a message replace those of the channel only if it wins. -/
theorem tsCompare_lost {isnew : Bool} {oldts newts : Int}
    (h : (tsCompare isnew oldts newts).keepOurModes = false) :
    isnew = false ∧ newts ≠ 0 ∧ oldts ≠ 0 ∧ newts < oldts := by
  unfold tsCompare at h
  split at h
  · cases h
  · rename_i hnew
    split at h
    · cases h
    · rename_i hzero
      rw [not_or] at hzero
      split at h
      · cases h
      · split at h
        · rename_i hlt
          exact ⟨by simpa using hnew, hzero.1, hzero.2, hlt⟩
        · cases h

/-- Otherwise the limit of the channel is a lower bound. -/
theorem sjoinMode_limit {o : TsOutcome} {mode oldmode : Mode} (hold : 0 ≤ oldmode.limit)
    (hmode : o.keepOurModes = false → 0 ≤ mode.limit) : 0 ≤ (sjoinMode o mode oldmode).limit := by
  unfold sjoinMode
  split
  · exact hold
  · split
    · rw [Mode.join_limit]
      exact Int.le_trans hold (Int.le_max_right ..)
    · rename_i hour
      exact hmode (by simpa using hour)

theorem getOrCreate_old {t t' : Table} {name : Bytes} {now : Int} {p : Nat}
    (h : getOrCreateChannel t name now = (t', some (p, false))) :
    t' = t ∧ t.lookup (lookupName name) = some p := by
  obtain ⟨hlook, -, rfl⟩ | ⟨-, hnew, -⟩ := getOrCreateChannel_some h
  · exact ⟨rfl, hlook⟩
  · cases hnew

theorem msSjoin_nonNeg (h : NonNeg srv.table) {now : Int} (hok : LimitOk srv (.sjoin m now)) :
    NonNeg (msSjoin srv m now).table := by
  unfold msSjoin
  split
  · exact h
  · rename_i mode users hparse
    have hget := h.getOrCreate m.name now
    split
    · exact h
    · rename_i t p isnew heq
      rw [heq] at hget
      have hlimit : 0 ≤ (sjoinChannel srv m isnew (atol m.ts) mode users (t.chan p)).1.mode.limit := by
        rw [sjoinChannel_fields.2.1]
        refine sjoinMode_limit (hget p) fun hlost => ?_
        obtain ⟨rfl, hnew, hold, hlt⟩ := tsCompare_lost hlost
        obtain ⟨rfl, hlook⟩ := getOrCreate_old heq
        exact hok mode users p hparse ⟨hlook, hnew, hold, hlt⟩
      dsimp only
      split
      · exact fun q => hget.setChan hlimit p q
      · exact hget.setChan hlimit p

theorem Wins.getOrCreate {p : Nat} (h : Wins srv m p) (hname : m.name ≠ []) (now : Int) :
    getOrCreateChannel srv.table m.name now = (srv.table, some (p, false)) :=
  getOrCreateChannel_found hname h.1 now

theorem Wins.tsCompare {p : Nat} (h : Wins srv m p) :
    tsCompare false (srv.table.chan p).channelts (atol m.ts) = ⟨atol m.ts, false, true⟩ := by
  obtain ⟨-, hnew, hold, hlt⟩ := h
  unfold Chan.tsCompare
  rw [if_neg (by decide), if_neg (not_or.mpr ⟨hnew, hold⟩), if_neg (by omega), if_pos hlt]

/-- A message that wins brings its limit, whatever it is. -/
theorem limit_of_wins {mode : Mode} {users : Bytes} {p : Nat} (hparse : sjoinParse m = some (mode, users))
    (hwins : Wins srv m p) (now : Int) :
    ((msSjoin srv m now).table.chan p).mode.limit = mode.limit := by
  have hget := hwins.getOrCreate (sjoinParse_name hparse) now
  have hmode := (@sjoinChannel_fields srv m false (atol m.ts) mode users (srv.table.chan p)).2.1
  rw [hwins.tsCompare] at hmode
  unfold msSjoin
  simp only [hparse, hget, Bool.false_eq_true, and_false, if_false, Table.chan_setChan]
  rw [hmode]
  rfl

end Sjoins

-- ============================================================================
-- Runs
-- ============================================================================

section Runs

variable {cfg : Config} {srv srv' : Server}

theorem mJoin_nonNeg (h : NonNeg srv.table) (c : Nat) (source : Client) (name key : Bytes)
    (permitted invited : Bool) (now : Int) :
    NonNeg (mJoin cfg srv c source name key permitted invited now).table := by
  unfold mJoin
  split
  · exact h
  · split
    · rename_i p _
      split
      · exact h
      · split
        · refine h.setChan ?_ p
          rw [enterLocal_limit]
          exact h p
        · exact h
    · have hget := h.getOrCreate name now
      split
      · exact h
      · rename_i t p isnew heq
        rw [heq] at hget
        split
        · refine hget.setChan ?_ p
          rw [enterLocal_limit]
          exact hget p
        · exact hget

theorem msJoin_nonNeg (h : NonNeg srv.table) (c : Nat) (ts name : Bytes) (now : Int) :
    NonNeg (msJoin srv c ts name now).table := by
  unfold msJoin
  split
  · exact h
  · have hget := h.getOrCreate name now
    split
    · exact h
    · rename_i t p isnew heq
      rw [heq] at hget
      exact hget.setChan (enterRemote_limit (hget p) isnew _ c) p

theorem runMode_nonNeg (h : NonNeg srv.table) {target : Option (Nat × Call)}
    (hcall : ∀ p call, target = some (p, call) → ∀ t ∈ call.parv, NoNul t)
    (hrun : runMode srv target = some srv') : NonNeg srv'.table := by
  cases target with
  | none =>
    obtain rfl := Option.some.inj hrun
    exact h
  | some pc =>
    obtain ⟨p, call⟩ := pc
    unfold runMode setChannelMode at hrun
    rw [Option.map_eq_some_iff] at hrun
    obtain ⟨w, hw, rfl⟩ := hrun
    exact h.setChan (letters_limit (hcall p call rfl) _ hw (h p)) p

theorem changeNick_nonNeg (h : NonNeg srv.table) (c : Nat) (cl : Client) (nick : Bytes) :
    NonNeg (changeNick srv c cl nick).table := by
  show NonNeg (if _ then invalidateBancacheUser srv.table c else srv.table)
  split
  · exact fun p => h p
  · exact h

theorem step_nonNeg {a : Action} (h : NonNeg srv.table) (hok : LimitOk srv a)
    (hstep : srv.step cfg a = some srv') : NonNeg srv'.table := by
  cases a with
  | introduce cl =>
    simp only [Server.step] at hstep
    split at hstep
    · obtain rfl := Option.some.inj hstep
      exact h
    · cases hstep
  | exit c =>
    obtain ⟨cl, -, hstep⟩ := Server.withClient_eq_some hstep
    obtain rfl := Option.some.inj hstep
    exact h.removeUserFromChannels c
  | join c name key permitted invited now =>
    obtain ⟨cl, -, hstep⟩ := Server.withClient_eq_some hstep
    split at hstep
    · obtain rfl := Option.some.inj hstep
      exact mJoin_nonNeg h c cl name key permitted invited now
    · cases hstep
  | joinZero c =>
    obtain ⟨cl, -, hstep⟩ := Server.withClient_eq_some hstep
    obtain rfl := Option.some.inj hstep
    exact h.removeUserFromChannels c
  | part c p =>
    simp only [Server.step] at hstep
    split at hstep
    · obtain rfl := Option.some.inj hstep
      exact h.removeUserFromChannel p c
    · cases hstep
  | remoteJoin c ts name now =>
    obtain ⟨cl, -, hstep⟩ := Server.withClient_eq_some hstep
    split at hstep
    · obtain rfl := Option.some.inj hstep
      exact msJoin_nonNeg h c ts name now
    · cases hstep
  | sjoin m now =>
    simp only [Server.step] at hstep
    split at hstep
    · obtain rfl := Option.some.inj hstep
      exact msSjoin_nonNeg h hok
    · cases hstep
  | mode dest a =>
    obtain ⟨cl, -, hstep⟩ := Server.withClient_eq_some hstep
    split at hstep
    · rename_i hwf
      rw [Bool.and_eq_true] at hwf
      refine runMode_nonNeg h (fun p call hcall => ?_) hstep
      obtain ⟨msptr, rfl⟩ := mMode_call hcall
      exact ModeArgs.wellFormed_noNul hwf.2
    · cases hstep
  | serverMode dest a =>
    obtain ⟨cl, -, hstep⟩ := Server.withClient_eq_some hstep
    split at hstep
    · rename_i hwf
      rw [Bool.and_eq_true] at hwf
      refine runMode_nonNeg h (fun p call hcall => ?_) hstep
      obtain ⟨msptr, rfl⟩ := msMode_call hcall
      exact ModeArgs.wellFormed_noNul hwf.2
    · cases hstep
  | tmode ts dest a =>
    obtain ⟨cl, -, hstep⟩ := Server.withClient_eq_some hstep
    split at hstep
    · rename_i hwf
      rw [Bool.and_eq_true] at hwf
      refine runMode_nonNeg h (fun p call hcall => ?_) hstep
      obtain ⟨msptr, rfl⟩ := msTmode_call hcall
      exact ModeArgs.wellFormed_noNul hwf.2
    · cases hstep
  | bmask c ts dest letter masks now =>
    obtain ⟨cl, -, hstep⟩ := Server.withClient_eq_some hstep
    split at hstep
    · split at hstep
      · obtain rfl := Option.some.inj hstep
        exact h
      · rename_i p k _
        obtain rfl := Option.some.inj hstep
        refine h.setChan ?_ p
        rw [bmaskWalk_mode]
        exact h p
    · cases hstep
  | nick c nick =>
    obtain ⟨cl, -, hstep⟩ := Server.withClient_eq_some hstep
    split at hstep
    · obtain rfl := Option.some.inj hstep
      exact changeNick_nonNeg h c cl nick
    · cases hstep
  | send c p =>
    obtain ⟨cl, -, hstep⟩ := Server.withClient_eq_some hstep
    split at hstep
    · obtain rfl := Option.some.inj hstep
      refine h.setChan ?_ p
      rw [canSend_mode]
      exact h p
    · cases hstep

/-- In a run in which no message with a negative limit wins a channel, no limit is ever
    negative. -/
theorem limit_nonneg (h : Reach (Server.step cfg) LimitOk Server.start srv) :
    ∀ p ∈ srv.table.globalChannelList, 0 ≤ (srv.table.chan p).mode.limit := by
  have hinv : NonNeg srv.table := by
    refine Reach.invariant (P := fun s : Server => NonNeg s.table) (fun _ => Int.le_refl 0) ?_ h
    exact fun s a s' hs hok hstep => step_nonNeg hs hok hstep
  exact fun p _ => hinv p

end Runs

-- ============================================================================
-- Concrete runs
-- ============================================================================

/-- `SJOIN ts #a +modes args :bob`, from the server of `bob`. -/
def bobSjoin (ts modes : Bytes) (args : List Bytes) : Sjoin :=
  ⟨1, [49, 65, 65], ts, [35, 97], modes, args ++ [[98, 111, 98]]⟩

/-- He is in `#a` since 20. -/
def bobServer : Server :=
  [Action.introduce bob, .sjoin (bobSjoin [50, 48] [43] []) 20].foldl
    (Reach.perform (Server.step plainConfig)) Server.start

/-- `SJOIN 10 #a +l limit :bob`, which wins. -/
def limitSjoin (limit : Bytes) : Sjoin := bobSjoin [49, 48] [43, 108] [limit]

theorem bobServer_reach {ok : Server → Action → Prop} (hbob : ∀ srv, ok srv (.introduce bob))
    (hjoin : ∀ srv, ok srv (.sjoin (bobSjoin [50, 48] [43] []) 20)) :
    Reach (Server.step plainConfig) ok Server.start bobServer :=
  (Reach.init.performed (hbob _)).performed (hjoin _)

theorem limitOk_of_parse {m : Sjoin} {mode : Mode} {users : Bytes}
    (hparse : sjoinParse m = some (mode, users)) (h : 0 ≤ mode.limit) (srv : Server) (now : Int) :
    LimitOk srv (.sjoin m now) := by
  intro mode' users' p hparse' _
  obtain ⟨rfl, -⟩ := Prod.mk.inj (Option.some.inj (hparse.symm.trans hparse'))
  exact h

/-- A limit of 5 wins with its `SJOIN`. -/
theorem limit_nonneg_five :
    ((msSjoin bobServer (limitSjoin [53]) 30).table.chan 0).mode.limit = 5 ∧
      ∀ p ∈ (msSjoin bobServer (limitSjoin [53]) 30).table.globalChannelList,
        0 ≤ ((msSjoin bobServer (limitSjoin [53]) 30).table.chan p).mode.limit := by
  have hjoin : sjoinParse (bobSjoin [50, 48] [43] []) = some (Mode.none, [98, 111, 98]) := by decide
  have hfive : sjoinParse (limitSjoin [53]) = some (⟨0, 5, []⟩, [98, 111, 98]) := by decide
  have hreach : Reach (Server.step plainConfig) LimitOk Server.start bobServer :=
    bobServer_reach (fun _ => trivial) fun srv => limitOk_of_parse hjoin (by decide) srv 20
  refine ⟨by decide, @limit_nonneg plainConfig _ ?_⟩
  exact hreach.next (a := .sjoin (limitSjoin [53]) 30) (limitOk_of_parse hfive (by decide) _ _) rfl

/-- And so does a limit of -5. -/
theorem not_limit_nonneg :
    ¬ ∀ srv, Reach (Server.step plainConfig) anyStep Server.start srv →
      ∀ p ∈ srv.table.globalChannelList, 0 ≤ (srv.table.chan p).mode.limit := by
  intro h
  have hreach : Reach (Server.step plainConfig) anyStep Server.start
      (msSjoin bobServer (limitSjoin [45, 53]) 30) :=
    (bobServer_reach (fun _ => trivial) fun _ => trivial).next (a := .sjoin (limitSjoin [45, 53]) 30) trivial rfl
  have hneg := h _ hreach 0 (by decide)
  revert hneg
  decide

end Bluebox.Limit
