/-
  Bluebox.Channel.Server

  The server as a state machine: every command that touches a channel is an
  action, and `Server.step` runs it.

  What a step does to the channel table is a sequence of three kinds of change:
  a channel is created, destroyed, or updated.  `step_cases` says so for every
  action, and the invariants of later modules start from there.
-/
import Bluebox.Lib.Reach
import Bluebox.Channel.Update

namespace Bluebox.Chan

open Bluebox.Lib

-- ============================================================================
-- Mode commands
-- ============================================================================

/-- `find_chasing`: by name, or by what the nick history remembers. -/
def findChasing (srv : Server) (source : Client) (history : Bytes → Option Nat) (user : Bytes) :
    Option (Nat × Client) :=
  let who := (if source.myClient then findNamedClient srv user else findClient srv user).filter
    fun x => x.2.isClient
  if who.isSome || isDigit (user.headD 0) then who
  else (history user).bind fun c => (srv.client c).map fun cl => (c, cl)

/-- What a mode command is called with: its source, the parameters from the mode
    letters on, and the nick history. -/
structure ModeArgs where
  sourceP : Nat
  parv : List Bytes
  history : Bytes → Option Nat
  now : Int

/-- The call of `set_channel_mode`. -/
def modeCall (cfg : Config) (srv : Server) (source : Client) (msptr : Option Membership)
    (a : ModeArgs) : Call where
  cfg := cfg
  sourceP := a.sourceP
  source := source
  alevel := getChannelAccess source msptr
  parv := a.parv
  findChasing := findChasing srv source a.history
  now := a.now

/-- `m_mode` of a user: the channel and the call of `set_channel_mode`, if it gets
    that far. -/
def mMode (cfg : Config) (srv : Server) (source : Client) (dest : Bytes) (a : ModeArgs) :
    Option (Nat × Call) :=
  if !isChannelName dest || !checkChannelName dest || a.parv.isEmpty then none
  else
    match findChannel srv.table dest with
    | none => none
    | some p =>
      let msptr := (srv.table.chan p).findMembership a.sourceP
      if msptr.any (·.isDeop) then none else some (p, modeCall cfg srv source msptr a)

/-- `ms_mode` of a server. -/
def msMode (cfg : Config) (srv : Server) (source : Client) (dest : Bytes) (a : ModeArgs) :
    Option (Nat × Call) :=
  (findChannel srv.table dest).map fun p => (p, modeCall cfg srv source none a)

/-- `ms_tmode`: dropped when its time stamp is higher. -/
def msTmode (cfg : Config) (srv : Server) (source : Client) (ts dest : Bytes) (a : ModeArgs) :
    Option (Nat × Call) :=
  if !isChannelName dest || !checkChannelName dest then none
  else
    match findChannel srv.table dest with
    | none => none
    | some p =>
      if atol ts > (srv.table.chan p).channelts then none
      else if source.isServer then some (p, modeCall cfg srv source none a)
      else
        let msptr := (srv.table.chan p).findMembership a.sourceP
        if msptr.any (·.isDeop) then none else some (p, modeCall cfg srv source msptr a)

/-- The channel and the list of a `BMASK`. -/
def bmaskTarget (srv : Server) (ts dest letter : Bytes) : Option (Nat × BanType) :=
  if !isChannelName dest || !checkChannelName dest then none
  else
    match findChannel srv.table dest with
    | none => none
    | some p =>
      if atol ts > (srv.table.chan p).channelts then none
      else (banLetter (letter.headD 0)).map fun k => (p, k)

/-- Run `set_channel_mode` on a channel. -/
def runMode (srv : Server) : Option (Nat × Call) → Option Server
  | none => some srv
  | some (p, call) =>
    (setChannelMode call (srv.table.chan p)).map fun w =>
      { srv with table := srv.table.setChan p w.ch }

-- ============================================================================
-- Nick changes
-- ============================================================================

/-- What `clean_nick` and `clean_uid` let through has only these characters. -/
def validNick (nick : Bytes) : Bool := nick != [] && nick.all isNickChar

/-- `invalidate_bancache_user`. -/
def invalidateBancacheUser (t : Table) (c : Nat) : Table :=
  { t with chan := fun p => (t.chan p).modifyMember c forgetVerdict }

/-- Write a client back. -/
def Server.setClient (srv : Server) (c : Nat) (cl : Client) : Server :=
  { srv with clients := srv.clients.map fun x => if x.1 = c then (c, cl) else x }

/-- `change_local_nick` and `change_remote_nick`: only for a local user the
    cached verdicts are dropped, and not when the nick changes in case only. -/
def changeNick (srv : Server) (c : Nat) (cl : Client) (nick : Bytes) : Server :=
  let table :=
    if cl.myClient && irccmp cl.name nick != 0 then invalidateBancacheUser srv.table c
    else srv.table
  { srv with table := table }.setClient c { cl with name := nick }

-- ============================================================================
-- Actions
-- ============================================================================

/-- A command, or what else happens to clients and channels. -/
inductive Action
  | introduce (cl : Client)
  | exit (c : Nat)
  | join (c : Nat) (name key : Bytes) (permitted invited : Bool) (now : Int)
  | joinZero (c : Nat)
  | part (c p : Nat)
  | remoteJoin (c : Nat) (ts name : Bytes) (now : Int)
  | sjoin (m : Sjoin) (now : Int)
  | mode (dest : Bytes) (a : ModeArgs)
  | serverMode (dest : Bytes) (a : ModeArgs)
  | tmode (ts dest : Bytes) (a : ModeArgs)
  | bmask (c : Nat) (ts dest letter masks : Bytes) (now : Int)
  | nick (c : Nat) (nick : Bytes)
  | send (c p : Nat)

/-- A client as it can be introduced: users have nicks. -/
def Client.wellFormed (cl : Client) : Bool :=
  cl.isServer || validNick cl.name

/-- The parameters of an `SJOIN` are strings, and only the last has spaces. -/
def Sjoin.wellFormed (m : Sjoin) : Bool :=
  m.params.all (fun t => !t.contains 0) && m.params.dropLast.all fun t => !t.contains 32

/-- The parameters of a command are strings. -/
def ModeArgs.wellFormed (a : ModeArgs) : Bool := a.parv.all fun t => !t.contains 0

/-- Go on with the client at an address. -/
def Server.withClient (srv : Server) (c : Nat) (f : Client → Option Server) : Option Server :=
  (srv.client c).bind f

/-- Run an action; none when it can not happen, or crashes the server. -/
def Server.step (cfg : Config) (srv : Server) : Action → Option Server
  | .introduce cl =>
    if cl.wellFormed then
      some { srv with clients := (srv.nextClient, cl) :: srv.clients, nextClient := srv.nextClient + 1 }
    else none
  | .exit c => srv.withClient c fun _ =>
    some { srv with
      table := removeUserFromChannels srv.table c
      clients := srv.clients.filter fun x => x.1 != c }
  | .join c name key permitted invited now => srv.withClient c fun cl =>
    if cl.myClient then some (mJoin cfg srv c cl name key permitted invited now) else none
  | .joinZero c => srv.withClient c fun _ =>
    some { srv with table := removeUserFromChannels srv.table c }
  | .part c p =>
    if p ∈ srv.table.globalChannelList ∧ (srv.table.chan p).isMember c then
      some { srv with table := removeUserFromChannel srv.table p c }
    else none
  | .remoteJoin c ts name now => srv.withClient c fun cl =>
    if !cl.myClient && cl.isClient then some (msJoin srv c ts name now) else none
  | .sjoin m now => if m.wellFormed then some (msSjoin srv m now) else none
  | .mode dest a => srv.withClient a.sourceP fun cl =>
    if cl.isClient && a.wellFormed then runMode srv (mMode cfg srv cl dest a) else none
  | .serverMode dest a => srv.withClient a.sourceP fun cl =>
    if cl.isServer && a.wellFormed then runMode srv (msMode cfg srv cl dest a) else none
  | .tmode ts dest a => srv.withClient a.sourceP fun cl =>
    if !cl.myClient && a.wellFormed then runMode srv (msTmode cfg srv cl ts dest a) else none
  | .bmask c ts dest letter masks now => srv.withClient c fun cl =>
    if cl.isServer && !masks.contains 0 then
      match bmaskTarget srv ts dest letter with
      | none => some srv
      | some (p, k) =>
        let ch := bmaskWalk cfg cl k now (srv.table.chan p) (bmaskMasks masks)
        some { srv with table := srv.table.setChan p ch }
    else none
  | .nick c nick => srv.withClient c fun cl =>
    if cl.isClient && validNick nick then some (changeNick srv c cl nick) else none
  | .send c p => srv.withClient c fun cl =>
    if p ∈ srv.table.globalChannelList then
      some { srv with table := srv.table.setChan p (canSend cfg (srv.table.chan p) c cl).1 }
    else none

/-- The masks an action hands to `add_id` are allowed. -/
def Action.MasksOk (cfg : Config) (ok : Client → Bytes → Prop) (srv : Server) : Action → Prop
  | .mode dest a => ∀ cl p call, srv.client a.sourceP = some cl →
    mMode cfg srv cl dest a = some (p, call) →
    LettersOk ok call (call.parv.getD 0 []) (Walk.start (srv.table.chan p))
  | .serverMode dest a => ∀ cl p call, srv.client a.sourceP = some cl →
    msMode cfg srv cl dest a = some (p, call) →
    LettersOk ok call (call.parv.getD 0 []) (Walk.start (srv.table.chan p))
  | .tmode ts dest a => ∀ cl p call, srv.client a.sourceP = some cl →
    msTmode cfg srv cl ts dest a = some (p, call) →
    LettersOk ok call (call.parv.getD 0 []) (Walk.start (srv.table.chan p))
  | .bmask c ts dest letter masks _ => ∀ cl, srv.client c = some cl →
    bmaskTarget srv ts dest letter ≠ none → ∀ mask ∈ bmaskMasks masks, ok cl mask
  | _ => True

-- ============================================================================
-- What joining does to a channel
-- ============================================================================

section Joins

variable {cfg : Config} {client : Nat → Option Client} {ok : Client → Bytes → Prop}

theorem enterLocal_updates {ch : Channel} {c : Nat} {now : Int} (hc : ch.isMember c = false)
    (hcl : (client c).isSome) : Updates cfg client ok ch (enterLocal ch c now) := by
  unfold enterLocal
  split
  · refine .head (.enter c chflChanop hc (by decide) hcl) (.head (.stamp now) (.single ?_))
    exact .mode _ fun hv => ⟨toNat_or_lt (toNat_or_lt hv.bits (by decide)) (by decide), hv.limit,
      hv.noSpace, hv.noNul, hv.length_lt⟩
  · exact .single (.enter c 0 hc (by decide) hcl)

theorem removeOurModes_update (ch : Channel) : Update cfg client ok ch (removeOurModes ch) := by
  refine .status _ fun m => ⟨rfl, rfl, ?_⟩
  have hall : ∀ x : Fin 256,
      (UInt8.ofFin x &&& ~~~(chflChanop ||| chflHalfop ||| chflVoice)) &&& chflBanned
        = UInt8.ofFin x &&& chflBanned := by
    decide +kernel
  have hflags : (m.flags &&& ~~~(chflChanop ||| chflHalfop ||| chflVoice)) &&& chflBanned
      = m.flags &&& chflBanned := hall m.flags.toFin
  unfold Membership.canSendBanned
  rw [hflags]

theorem enterRemote_updates {isnew : Bool} {newts : Int} {c : Nat} {ch : Channel}
    (hcl : (client c).isSome) : Updates cfg client ok ch (enterRemote isnew newts c ch) := by
  unfold enterRemote
  generalize tsCompare isnew ch.channelts newts = t
  have hts : Updates cfg client ok ch { ch with channelts := t.ts } := .single (.stamp t.ts)
  have hmode : Updates cfg client ok ch
      (if t.keepOurModes = true then { ch with channelts := t.ts }
        else { removeOurModes { ch with channelts := t.ts } with mode := Mode.none }) := by
    split
    · exact hts
    · exact (hts.tail (removeOurModes_update _)).tail (.mode Mode.none fun _ => Mode.valid_none)
  dsimp only
  generalize (if t.keepOurModes = true then { ch with channelts := t.ts }
    else { removeOurModes { ch with channelts := t.ts } with mode := Mode.none }) = v at hmode
  by_cases hm : v.isMember c = true
  · rw [if_pos hm]
    exact hmode
  · rw [if_neg hm]
    exact hmode.tail (.enter c 0 (by simpa using hm) (by decide) hcl)

-- ============================================================================
-- SJOIN
-- ============================================================================

theorem Server.search_isSome {srv : Server} {f : Client → Bool} {c : Nat} {cl : Client}
    (h : srv.search f = some (c, cl)) : (srv.client c).isSome := by
  unfold Server.client
  rw [Option.isSome_map, List.find?_isSome]
  exact ⟨(c, cl), List.mem_of_find?_eq_some h, by simp⟩

theorem findClient_isSome {srv : Server} {name : Bytes} {c : Nat} {cl : Client}
    (h : findClient srv name = some (c, cl)) : (srv.client c).isSome := by
  unfold findClient at h
  split at h
  · cases h
  · split at h
    · exact Server.search_isSome h
    · exact Server.search_isSome h

theorem sjoinTarget_isSome {srv : Server} {link : Nat} {s : Bytes} {c : Nat} {fl : UInt8}
    (h : sjoinTarget srv link s = some (c, fl)) : (srv.client c).isSome := by
  unfold sjoinTarget at h
  dsimp only at h
  split at h
  · cases h
  · rename_i c' target heq
    split at h
    · obtain ⟨rfl, -⟩ := Prod.mk.inj (Option.some.inj h)
      exact findClient_isSome heq
    · cases h

/-- No prefix sets the bit of the cache. -/
theorem statusPrefix_banned (n : Nat) : ∀ (fl : UInt8) (s : Bytes), fl &&& chflBanned = 0 →
    (statusPrefix n fl s).1 &&& chflBanned = 0 := by
  have hor : ∀ bit ∈ [chflChanop, chflHalfop, chflVoice], ∀ fl : UInt8, fl &&& chflBanned = 0 →
      (fl ||| bit) &&& chflBanned = 0 := fun bit hbit fl h =>
    (statusBits_banned bit hbit fl).1.trans h
  induction n with
  | zero => exact fun fl s h => h
  | succ n ih =>
    intro fl s h
    cases s with
    | nil => exact h
    | cons c r =>
      rw [statusPrefix]
      split
      · exact ih _ _ (hor _ (by decide) fl h)
      · split
        · exact ih _ _ (hor _ (by decide) fl h)
        · split
          · exact ih _ _ (hor _ (by decide) fl h)
          · exact ih _ _ h

theorem sjoinTarget_banned {srv : Server} {link : Nat} {s : Bytes} {c : Nat} {fl : UInt8}
    (h : sjoinTarget srv link s = some (c, fl)) : fl &&& chflBanned = 0 := by
  unfold sjoinTarget at h
  dsimp only at h
  split at h
  · cases h
  · split at h
    · obtain ⟨-, rfl⟩ := Prod.mk.inj (Option.some.inj h)
      exact statusPrefix_banned 3 0 s (by decide)
    · cases h

theorem sjoinStatus_banned {keep : Bool} {fl : UInt8} (h : fl &&& chflBanned = 0) :
    sjoinStatus keep fl &&& chflBanned = 0 := by
  unfold sjoinStatus
  split
  · exact h
  · split <;> decide

theorem sjoinUsers_updates {srv : Server} {link : Nat} {keep : Bool} (users : List Bytes) :
    ∀ st : Channel × Nat, Updates cfg srv.client ok st.1
      (users.foldl (sjoinUser srv link keep) st).1 := by
  induction users with
  | nil => exact fun _ => .refl
  | cons u users ih =>
    intro st
    rw [List.foldl_cons]
    refine Relation.ReflTransGen.trans ?_ (ih _)
    unfold sjoinUser
    split
    · exact .refl
    · rename_i c fl heq
      split
      · exact .refl
      · rename_i hm
        exact .single (.enter c _ (by simpa using hm) (sjoinStatus_banned (sjoinTarget_banned heq))
          (sjoinTarget_isSome heq))

theorem sjoinMode_valid {t : TsOutcome} {mode oldmode : Mode} (hm : mode.Valid)
    (ho : oldmode.Valid) : (sjoinMode t mode oldmode).Valid := by
  unfold sjoinMode
  split
  · exact ho
  · split
    · exact hm.join ho
    · exact hm

theorem sjoinChannel_updates {srv : Server} {m : Sjoin} {isnew : Bool} {newts : Int} {mode : Mode}
    {users : Bytes} {ch : Channel} (hm : mode.Valid) :
    Updates cfg srv.client ok ch (sjoinChannel srv m isnew newts mode users ch).1 := by
  unfold sjoinChannel
  generalize tsCompare isnew ch.channelts newts = t
  dsimp only
  -- the modes, before the users come in
  have hmode : Updates cfg srv.client ok ch
      { (if t.keepOurModes = true then { ch with channelts := t.ts }
          else removeOurModes { ch with channelts := t.ts }) with
        mode := sjoinMode t mode ch.mode } := by
    refine (Relation.ReflTransGen.head (Update.mode (sjoinMode t mode ch.mode)
      fun hv => sjoinMode_valid hm hv) ?_)
    refine Relation.ReflTransGen.head (Update.stamp t.ts) ?_
    split
    · exact .refl
    · exact .single (removeOurModes_update _)
  have husers := hmode.trans
    (@sjoinUsers_updates cfg ok srv m.link t.keepNewModes (sjoinUsers [] users) (_, 0))
  generalize (sjoinUsers [] users).foldl (sjoinUser srv m.link t.keepNewModes) _ = st at husers ⊢
  split
  · exact husers
  · split
    · exact husers.tail .reset
    · exact husers

/-- The modes of a well-formed `SJOIN` are valid. -/
theorem sjoinModes_valid {params : List Bytes} (hnul : ∀ t ∈ params, NoNul t)
    (hspace : ∀ t ∈ params.dropLast, (32 : UInt8) ∉ t) (s : Bytes) :
    ∀ {mode mode' : Mode} {args args' : Nat}, mode.Valid →
      sjoinModes params s mode args = some (mode', args') → mode'.Valid := by
  induction s with
  | nil =>
    intro mode mode' args args' hv h
    obtain ⟨rfl, -⟩ := Prod.mk.inj (Option.some.inj h)
    exact hv
  | cons c s ih =>
    intro mode mode' args args' hv h
    rw [sjoinModes] at h
    split at h
    · split at h
      · cases h
      · rename_i hlen
        -- the parameter is not the last one
        have hget : params.getD args [] ∈ params.dropLast := by
          have hlt : args < params.dropLast.length := by
            rw [List.length_dropLast]
            omega
          rw [List.getD_eq_getElem?_getD, List.getElem?_eq_getElem (by omega), Option.getD_some,
            ← List.getElem_dropLast hlt]
          exact List.getElem_mem hlt
        have hmem := List.dropLast_subset _ hget
        refine ih ?_ h
        exact ⟨hv.bits, hv.limit, fun hx => hspace _ hget (List.mem_of_mem_take hx),
          (hnul _ hmem).take _, strlcpy_length_lt _ (by decide)⟩
    · split at h
      · split at h
        · cases h
        · refine ih ?_ h
          exact ⟨hv.bits, toInt32_isInt32 _, hv.noSpace, hv.noNul, hv.length_lt⟩
      · have hbit : (sjoinBit c).toNat < 2 ^ 9 := by
          unfold sjoinBit
          split <;> decide
        refine ih ?_ h
        exact ⟨toNat_or_lt hv.bits hbit, hv.limit, hv.noSpace, hv.noNul, hv.length_lt⟩

end Joins

end Bluebox.Chan
