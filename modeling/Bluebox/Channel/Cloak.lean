/-
  Bluebox.Channel.Cloak

  What others learn of the host of a user with mode `+x`.  Two servers that differ in
  that host alone send the same lines as long as the user changes its nick, joins and
  leaves channels, changes modes and exits; a local join depends on the host through the
  ban and invex lists of the channel, which are matched against it.

  `me_rsfnc` and `register_client` show the host.
-/
import Bluebox.Channel.Notify

namespace Bluebox.Cloak

open Bluebox.Lib Bluebox.Chan Bluebox.Notify
open Bluebox.ModeBuf (memberStart)

-- ============================================================================
-- Another host
-- ============================================================================

/-- The client with another host, if it is the one. -/
def hide (c : Nat) (h : Bytes) (d : Nat) (cl : Client) : Client :=
  if d = c then { cl with host := h } else cl

/-- The server on which a client has another host. -/
def setHost (srv : Server) (c : Nat) (h : Bytes) : Server :=
  { srv with clients := srv.clients.map fun x => (x.1, hide c h x.1 x.2) }

/-- The same with the rest of the state. -/
def swap (net : Net) (c : Nat) (h : Bytes) : Net := { net with srv := setHost net.srv c h }

/-- A result on the server where the user has another host. -/
def swapped (c : Nat) (h : Bytes) (r : Net × List Line) : Net × List Line := (swap r.1 c h, r.2)

/-- The lists of a channel treat a user and the one with another host alike. -/
def SameLists (cfg : Config) (ch : Channel) (cl : Client) (h : Bytes) : Prop :=
  isBanned cfg ch { cl with host := h } = isBanned cfg ch cl ∧
    ch.invexlist.any (·.covers cfg { cl with host := h }) = ch.invexlist.any (·.covers cfg cl)

/-- Before a local join, the lists of the channel treat both alike. -/
def JoinsAlike (cfg : Config) (c : Nat) (h : Bytes) (net : Net) : Act → Prop
  | .join name _ _ _ _ => ∀ cl p, net.srv.client c = some cl →
    findChannel net.srv.table name = some p → SameLists cfg (net.srv.table.chan p) cl h
  | _ => True

/-- And so in every state of a run. -/
def AllAlike (cfg : Config) (c : Nat) (h : Bytes) : Net → List Act → Prop
  | _, [] => True
  | net, a :: acts => JoinsAlike cfg c h net a ∧
    ∀ r, net.step cfg c a = some r → AllAlike cfg c h r.1 acts

/-- The user has mode `+x`. -/
def Hidden (net : Net) (c : Nat) : Prop := ∀ cl, net.srv.client c = some cl → cl.cloaked = true

section Fields

variable {net : Net} {srv : Server} {c d : Nat} {h : Bytes} {cl : Client}

theorem hide_self : hide c h c cl = { cl with host := h } := if_pos rfl

/-- Another host is all that is different. -/
theorem hide_eq (c : Nat) (h : Bytes) (d : Nat) (cl : Client) :
    ∃ host, hide c h d cl = { cl with host := host } := by
  unfold hide
  split
  · exact ⟨h, rfl⟩
  · exact ⟨cl.host, rfl⟩

theorem table_setHost (srv : Server) (c : Nat) (h : Bytes) : (setHost srv c h).table = srv.table := rfl

theorem client_setHost (srv : Server) (c d : Nat) (h : Bytes) :
    (setHost srv c h).client d = (srv.client d).map (hide c h d) := by
  unfold Server.client setHost
  rw [List.find?_map, Option.map_map, Option.map_map]
  change Option.map _ (srv.clients.find? fun x => x.1 == d) = _
  cases hfind : srv.clients.find? fun x => x.1 == d with
  | none => rfl
  | some x =>
    have hx : x.1 = d := by simpa using List.find?_some hfind
    rw [← hx]
    rfl

/-- A search that does not look at hosts finds the same client. -/
theorem search_setHost {p : Client → Bool} (hp : ∀ cl host, p { cl with host := host } = p cl) :
    (setHost srv c h).search p = (srv.search p).map fun x => (x.1, hide c h x.1 x.2) := by
  unfold Server.search setHost
  rw [List.find?_map]
  congr 2
  funext x
  obtain ⟨host, hhost⟩ := hide_eq c h x.1 x.2
  show p (hide c h x.1 x.2) = p x.2
  rw [hhost, hp]

theorem findNamedClient_setHost (name : Bytes) : findNamedClient (setHost srv c h) name =
    (findNamedClient srv name).map fun x => (x.1, hide c h x.1 x.2) := by
  unfold findNamedClient
  split
  · rfl
  · exact search_setHost fun _ _ => rfl

theorem findClient_setHost (name : Bytes) : findClient (setHost srv c h) name =
    (findClient srv name).map fun x => (x.1, hide c h x.1 x.2) := by
  unfold findClient
  split
  · rfl
  · split
    · exact search_setHost fun _ _ => rfl
    · exact search_setHost fun _ _ => rfl

theorem any_hide {p : Client → Bool} (hp : ∀ cl host, p { cl with host := host } = p cl)
    (o : Option Client) : (o.map (hide c h d)).any p = o.any p := by
  cases o with
  | none => rfl
  | some cl =>
    obtain ⟨host, hhost⟩ := hide_eq c h d cl
    show p (hide c h d cl) = p cl
    rw [hhost, hp]

end Fields

-- ============================================================================
-- Recipients
-- ============================================================================

section Recipients

variable (net : Net) (c : Nat) (h : Bytes)

theorem hears_swap : (swap net c h).hears = net.hears := by
  funext d
  show (((setHost net.srv c h).client d).any (·.myConnect) && !net.ioError d) = _
  rw [client_setHost, any_hide fun _ _ => rfl]
  rfl

theorem toChannel_swap (ch : Channel) (flags : Mems) (text : Bytes) :
    (swap net c h).toChannel ch flags text = net.toChannel ch flags text := by
  unfold Net.toChannel
  rw [hears_swap]

theorem toCommon_swap (d : Nat) (text : Bytes) :
    (swap net c h).toCommon d text = net.toCommon d text := by
  unfold Net.toCommon
  rw [hears_swap]
  show _ = List.map _ (_ ++ _)
  have hclient : ((swap net c h).srv.client d).any (·.myConnect) = (net.srv.client d).any (·.myConnect) := by
    show ((setHost net.srv c h).client d).any _ = _
    rw [client_setHost, any_hide fun _ _ => rfl]
  rw [hclient]
  rfl

theorem setFinalMode_swap (source : Bytes) (ch : Channel) (mode oldmode : Mode) :
    (swap net c h).setFinalMode source ch mode oldmode = net.setFinalMode source ch mode oldmode := by
  unfold Net.setFinalMode
  simp only [toChannel_swap]

theorem tsNotice_swap (ch : Channel) (oldts newts : Int) :
    (swap net c h).tsNotice ch oldts newts = net.tsNotice ch oldts newts :=
  toChannel_swap net c h _ _ _

theorem removeOurModes_swap (ch : Channel) :
    (swap net c h).removeOurModes ch = net.removeOurModes ch := by
  have hname : ∀ d, ((swap net c h).srv.client d).map (·.name) = (net.srv.client d).map (·.name) := by
    intro d
    show ((setHost net.srv c h).client d).map _ = _
    rw [client_setHost]
    cases net.srv.client d with
    | none => rfl
    | some cl =>
      obtain ⟨host, hhost⟩ := hide_eq c h d cl
      show some (hide c h d cl).name = some cl.name
      rw [hhost]
  unfold Net.removeOurModes
  simp only [toChannel_swap, hname]
  rfl

end Recipients

-- ============================================================================
-- The name others see
-- ============================================================================

section Shown

variable {net : Net} {c : Nat} {h : Bytes} {cl : Client}

theorem shown_host (hx : cl.cloaked = true) : shown { cl with host := h } = shown cl := by
  unfold shown
  dsimp only
  rw [hx]
  rfl

theorem monitorSignon_swap (cl : Client) (hx : cl.cloaked = true) :
    (swap net c h).monitorSignon { cl with host := h } = net.monitorSignon cl := by
  unfold Net.monitorSignon
  rw [shown_host hx]
  rfl

theorem changeNick_swap (hx : cl.cloaked = true) (nick : Bytes) :
    (swap net c h).changeNick c { cl with host := h } nick = net.changeNick c cl nick := by
  have hnew : (swap net c h).monitorSignon { cl with host := h, name := nick } =
      net.monitorSignon { cl with name := nick } :=
    monitorSignon_swap { cl with name := nick } hx
  unfold Net.changeNick
  rw [toCommon_swap, shown_host hx]
  dsimp only
  rw [hnew]
  rfl

theorem exitLines_swap (hx : cl.cloaked = true) (comment : Bytes) :
    (swap net c h).exitLines c { cl with host := h } comment = net.exitLines c cl comment := by
  unfold Net.exitLines
  rw [toCommon_swap, shown_host hx]
  rfl

theorem doJoin0_swap (hx : cl.cloaked = true) (ps : List Nat) : ∀ t : Table,
    (swap net c h).doJoin0 c { cl with host := h } t ps = net.doJoin0 c cl t ps := by
  induction ps with
  | nil => exact fun _ => rfl
  | cons p ps ih =>
    intro t
    rw [Net.doJoin0, Net.doJoin0, toChannel_swap, shown_host hx, ih]

theorem joinText_host (hx : cl.cloaked = true) (chname : Bytes) :
    joinText { cl with host := h } chname = joinText cl chname := by
  unfold joinText
  rw [shown_host hx]

theorem enterLocal_swap (hx : cl.cloaked = true) (ch : Channel) (now : Int) :
    (swap net c h).enterLocal ch c { cl with host := h } now = net.enterLocal ch c cl now := by
  unfold Net.enterLocal
  simp only [toChannel_swap, joinText_host hx]
  rfl

theorem enterRemote_swap (hx : cl.cloaked = true) (isnew : Bool) (newts : Int) (ch : Channel) :
    (swap net c h).enterRemote isnew newts c { cl with host := h } ch =
      net.enterRemote isnew newts c cl ch := by
  unfold Net.enterRemote
  simp only [toChannel_swap, joinText_host hx, tsNotice_swap, removeOurModes_swap, setFinalMode_swap]
  rfl

theorem modeLines_swap (hx : cl.cloaked = true) (w : Walk) :
    (swap net c h).modeLines { cl with host := h } w = net.modeLines cl w := by
  have hstart : memberStart { cl with host := h } w.ch.chname = memberStart cl w.ch.chname := by
    unfold memberStart
    dsimp only
    rw [hx]
    rfl
  have hto : ∀ flags, (swap net c h).toChannel w.ch flags = net.toChannel w.ch flags :=
    fun flags => funext (toChannel_swap net c h w.ch flags)
  unfold Net.modeLines
  simp only [hstart, hto]

end Shown

-- ============================================================================
-- Mode commands
-- ============================================================================

section Modes

/-- What the handlers read of a client that is named in a command. -/
def target (x : Nat × Client) : Nat × Bytes × Bytes × Bool := (x.1, x.2.id, x.2.name, x.2.service)

/-- Two calls of `set_channel_mode` that agree in all that the handlers read. -/
structure SameCall (call call' : Call) : Prop where
  cfg : call'.cfg = call.cfg
  sourceP : call'.sourceP = call.sourceP
  alevel : call'.alevel = call.alevel
  parv : call'.parv = call.parv
  now : call'.now = call.now
  myClient : call'.source.myClient = call.source.myClient
  setter : banSetter call'.source = banSetter call.source
  chasing : ∀ nick, (call'.findChasing nick).map target = (call.findChasing nick).map target

variable {call call' : Call} (hc : SameCall call call') (c : UInt8) (w : Walk)

include hc

theorem SameCall.count (w : Walk) (n : Nat) : w.count call' n = w.count call n := by
  unfold Walk.count
  rw [hc.myClient]

theorem SameCall.arg (w : Walk) : w.arg call' = w.arg call := by
  unfold Walk.arg
  rw [hc.parv]

theorem SameCall.chmSimple (modeType : UInt32) (halfop : Bool) :
    chmSimple call' c modeType halfop w = chmSimple call c modeType halfop w := by
  unfold Chan.chmSimple
  rw [hc.alevel, hc.count]

theorem SameCall.chmRegonly : chmRegonly call' c w = chmRegonly call c w := by
  unfold Chan.chmRegonly
  rw [hc.alevel]

theorem SameCall.chmSslonly : chmSslonly call' c w = chmSslonly call c w := by
  unfold Chan.chmSslonly
  rw [hc.alevel, hc.myClient, hc.cfg]

theorem SameCall.chmLimit : chmLimit call' c w = chmLimit call c w := by
  unfold Chan.chmLimit
  rw [hc.alevel, hc.parv, hc.arg]

theorem SameCall.chmKey : chmKey call' c w = chmKey call c w := by
  unfold Chan.chmKey
  rw [hc.alevel, hc.parv, hc.arg, hc.myClient]

theorem SameCall.chmStatus {st : StatusMode} (hadd : ∀ d, st.refuseAdd call' d = st.refuseAdd call d)
    (hdel : ∀ cl cl' : Client, cl'.service = cl.service → st.refuseDel call' cl' = st.refuseDel call cl) :
    chmStatus st call' c w = chmStatus st call c w := by
  have hchase := hc.chasing (w.arg call)
  unfold Chan.chmStatus
  rw [hc.alevel, hc.parv, hc.arg]
  cases hfound : call.findChasing (w.arg call) with
  | none =>
    rw [hfound, Option.map_none, Option.map_eq_none_iff] at hchase
    simp only [hfound, hchase]
  | some x =>
    rw [hfound, Option.map_some, Option.map_eq_some_iff] at hchase
    obtain ⟨x', hfound', hx⟩ := hchase
    obtain ⟨d, cl⟩ := x
    obtain ⟨d', cl'⟩ := x'
    obtain ⟨rfl, hid, hname, hservice⟩ : d' = d ∧ cl'.id = cl.id ∧ cl'.name = cl.name ∧
        cl'.service = cl.service := by
      simpa only [target, Prod.mk.injEq] using hx
    simp only [hfound, hfound', hc.count, hadd, hdel cl cl' hservice, hid, hname]

theorem SameCall.banRequest (k : BanType) : banRequest call' k w = banRequest call k w := by
  unfold Chan.banRequest
  simp only [hc.cfg, hc.myClient, hc.parv, hc.alevel, hc.count, hc.arg]

theorem SameCall.addId (ch : Channel) (mask : Bytes) (k : BanType) :
    addId call'.cfg ch call'.source mask k call'.now = addId call.cfg ch call.source mask k call.now := by
  unfold Chan.addId addRefused
  rw [hc.cfg, hc.myClient, hc.setter, hc.now]

theorem SameCall.applyBan (k : BanType) (w : Walk) (mask raw : Bytes) :
    applyBan call' c k w mask raw = applyBan call c k w mask raw := by
  unfold Chan.applyBan
  rw [hc.addId, hc.cfg]

theorem SameCall.chmBan (k : BanType) : chmBan call' c k w = chmBan call c k w := by
  unfold Chan.chmBan
  simp only [hc.banRequest, hc.applyBan]

theorem SameCall.modeTable : modeTable call' c w = modeTable call c w := by
  have hop : chmOp call' c w = chmOp call c w := by
    refine hc.chmStatus c w (fun d => ?_) fun cl cl' hservice => ?_
    · show (d == call'.sourceP) = (d == call.sourceP)
      rw [hc.sourceP]
    · show (call'.source.myClient && cl'.service) = (call.source.myClient && cl.service)
      rw [hc.myClient, hservice]
  have hhalfop : chmHalfop call' c w = chmHalfop call c w :=
    hc.chmStatus c w (fun _ => rfl) fun _ _ _ => rfl
  have hvoice : chmVoice call' c w = chmVoice call c w :=
    hc.chmStatus c w (fun _ => rfl) fun _ _ _ => rfl
  unfold Chan.modeTable
  simp only [hop, hhalfop, hvoice, hc.chmSimple, hc.chmRegonly, hc.chmSslonly, hc.chmLimit, hc.chmKey]

theorem SameCall.letterStep : letterStep call' c w = letterStep call c w := by
  unfold Chan.letterStep
  rw [hc.modeTable]
  simp only [hc.chmBan]

theorem SameCall.letters (cs : Bytes) : ∀ w : Walk, letters call' cs w = letters call cs w := by
  induction cs with
  | nil => exact fun _ => rfl
  | cons c cs ih =>
    intro w
    rw [Chan.letters, Chan.letters, hc.letterStep]
    cases Chan.letterStep call c w with
    | none => rfl
    | some w' => exact ih w'

/-- Such calls do the same to a channel. -/
theorem SameCall.setChannelMode (ch : Channel) : setChannelMode call' ch = setChannelMode call ch := by
  unfold Chan.setChannelMode
  rw [hc.parv]
  exact hc.letters _ _

end Modes

section Calls

variable {net : Net} {srv : Server} {c : Nat} {h : Bytes} {cl : Client}

theorem target_hide (c : Nat) (h : Bytes) (x : Nat × Client) :
    target (x.1, hide c h x.1 x.2) = target x := by
  obtain ⟨host, hhost⟩ := hide_eq c h x.1 x.2
  rw [hhost]
  rfl

theorem findChasing_setHost (history : Bytes → Option Nat) (user : Bytes) :
    findChasing (setHost srv c h) { cl with host := h } history user =
      (findChasing srv cl history user).map fun x => (x.1, hide c h x.1 x.2) := by
  have hwho : ((if cl.myClient then findNamedClient (setHost srv c h) user
        else findClient (setHost srv c h) user).filter fun x => x.2.isClient) =
      ((if cl.myClient then findNamedClient srv user else findClient srv user).filter
        fun x => x.2.isClient).map fun x => (x.1, hide c h x.1 x.2) := by
    rw [findNamedClient_setHost, findClient_setHost, ← apply_ite (Option.map _)]
    generalize (if cl.myClient = true then findNamedClient srv user else findClient srv user) = o
    cases o with
    | none => rfl
    | some x =>
      have hclient : (hide c h x.1 x.2).isClient = x.2.isClient := by
        obtain ⟨host, hhost⟩ := hide_eq c h x.1 x.2
        rw [hhost]
        rfl
      rw [Option.map_some, Option.filter_some, Option.filter_some]
      dsimp only
      rw [hclient]
      split <;> rfl
  have hmy : ({ cl with host := h } : Client).myClient = cl.myClient := rfl
  unfold findChasing
  dsimp only
  rw [hmy, hwho, Option.isSome_map]
  generalize ((if cl.myClient = true then findNamedClient srv user else findClient srv user).filter
    fun x => x.2.isClient) = who
  by_cases hfound : (who.isSome || isDigit (user.headD 0)) = true
  · rw [if_pos hfound, if_pos hfound]
  · rw [if_neg hfound, if_neg hfound]
    cases history user with
    | none => rfl
    | some d =>
      show ((setHost srv c h).client d).map _ = Option.map _ ((srv.client d).map _)
      rw [client_setHost, Option.map_map, Option.map_map]
      rfl

theorem sameCall_modeCall (hx : cl.cloaked = true) (cfg : Config) (msptr : Option Membership)
    (a : ModeArgs) : SameCall (modeCall cfg srv cl msptr a)
      (modeCall cfg (setHost srv c h) { cl with host := h } msptr a) where
  cfg := rfl
  sourceP := rfl
  alevel := rfl
  parv := rfl
  now := rfl
  myClient := rfl
  setter := by
    show banSetter { cl with host := h } = banSetter cl
    unfold banSetter
    dsimp only
    rw [hx]
    rfl
  chasing nick := by
    show (findChasing _ _ _ _).map target = (findChasing _ _ _ _).map target
    rw [findChasing_setHost, Option.map_map]
    congr 1
    funext x
    exact target_hide c h x

/-- Two calls for the same channel. -/
def SameCalls : Option (Nat × Call) → Option (Nat × Call) → Prop :=
  Option.Rel fun x x' => x'.1 = x.1 ∧ SameCall x.2 x'.2

theorem sameCalls_mMode (hx : cl.cloaked = true) (cfg : Config) (dest : Bytes) (a : ModeArgs) :
    SameCalls (mMode cfg srv cl dest a) (mMode cfg (setHost srv c h) { cl with host := h } dest a) := by
  unfold mMode
  split
  · exact .none
  · rw [table_setHost]
    cases findChannel srv.table dest with
    | none => exact .none
    | some p =>
      change SameCalls (if _ then _ else _) (if ((srv.table.chan p).findMembership a.sourceP).any _ then _ else _)
      split
      · exact .none
      · exact .some ⟨rfl, sameCall_modeCall hx cfg _ a⟩

theorem sameCalls_msTmode (hx : cl.cloaked = true) (cfg : Config) (ts dest : Bytes) (a : ModeArgs) :
    SameCalls (msTmode cfg srv cl ts dest a)
      (msTmode cfg (setHost srv c h) { cl with host := h } ts dest a) := by
  unfold msTmode
  split
  · exact .none
  · rw [table_setHost]
    cases findChannel srv.table dest with
    | none => exact .none
    | some p =>
      change SameCalls (if _ then _ else _) (if atol ts > (srv.table.chan p).channelts then _ else _)
      split
      · exact .none
      · change SameCalls (if _ then _ else _) (if cl.isServer then _ else _)
        split
        · exact .some ⟨rfl, sameCall_modeCall hx cfg _ a⟩
        · change SameCalls (if _ then _ else _)
            (if ((srv.table.chan p).findMembership a.sourceP).any _ then _ else _)
          split
          · exact .none
          · exact .some ⟨rfl, sameCall_modeCall hx cfg _ a⟩

theorem runMode_swap (hx : cl.cloaked = true) {o o' : Option (Nat × Call)} (ho : SameCalls o o') :
    (swap net c h).runMode { cl with host := h } o' =
      (net.runMode cl o).map (swapped c h) := by
  cases ho with
  | none => rfl
  | some hcalls =>
    rename_i x x'
    obtain ⟨p, call⟩ := x
    obtain ⟨p', call'⟩ := x'
    obtain ⟨rfl, hcall⟩ := hcalls
    unfold Net.runMode
    dsimp only
    rw [hcall.setChannelMode, Option.map_map]
    show Option.map _ (setChannelMode call (net.srv.table.chan p')) = _
    congr 1
    funext w
    show (_, (swap net c h).modeLines { cl with host := h } w) = _
    rw [modeLines_swap hx]
    rfl

end Calls

-- ============================================================================
-- Joins
-- ============================================================================

section Joins

variable {cfg : Config} {net : Net} {srv : Server} {c : Nat} {h : Bytes} {cl : Client} {name : Bytes}

theorem canJoin_host {ch : Channel} (hs : SameLists cfg ch cl h) (key : Bytes) (invited : Bool) :
    canJoin cfg ch { cl with host := h } key invited = canJoin cfg ch cl key invited := by
  unfold canJoin
  rw [hs.1, hs.2]

/-- A new channel has empty lists. -/
theorem sameLists_allocate (name : Bytes) (now : Int) : SameLists cfg (allocateChannel name now) cl h :=
  ⟨rfl, rfl⟩

theorem canJoin_new (t : Table) (s : Bytes) (now : Int) (key : Bytes) (invited : Bool) :
    canJoin cfg ((t.add s now).chan t.next) { cl with host := h } key invited =
      canJoin cfg ((t.add s now).chan t.next) cl key invited := by
  have hnew : (t.add s now).chan t.next = allocateChannel s now := Function.update_self t.next _ _
  rw [hnew]
  exact canJoin_host (sameLists_allocate s now) key invited

theorem getOrCreate_of_none {t : Table} (hname : isChannelName name = true)
    (hlen : name.length ≤ locChannelLen) (hfind : findChannel t name = none) (now : Int) :
    getOrCreateChannel t name now = (t.add name now, some (t.next, true)) := by
  have hne : name ≠ [] := by
    rintro rfl
    cases hname
  have hcut : lookupName name = name := by
    unfold lookupName
    rw [if_neg]
    have : locChannelLen ≤ channelLen := by decide
    omega
  unfold findChannel at hfind
  rw [if_neg hne] at hfind
  rw [getOrCreateChannel_new hne (by rw [hcut, hfind]), hcut]

/-- A join with the other host enters the same channel, or none. -/
theorem mJoinEnters_setHost (key : Bytes) (permitted invited : Bool) (now : Int)
    (hs : ∀ p, findChannel srv.table name = some p → SameLists cfg (srv.table.chan p) cl h) :
    mJoinEnters cfg (setHost srv c h) c { cl with host := h } name key permitted invited now =
      mJoinEnters cfg srv c cl name key permitted invited now := by
  unfold mJoinEnters
  split
  · rfl
  rename_i hok
  simp only [Bool.or_eq_true, Bool.not_eq_true', not_or, Bool.not_eq_false, decide_eq_true_eq] at hok
  obtain ⟨⟨⟨-, hlen⟩, hname⟩, -⟩ := hok
  simp only [table_setHost]
  cases hfind : findChannel srv.table name with
  | some p => simp only [canJoin_host (hs p hfind)]
  | none => simp only [getOrCreate_of_none hname (Nat.le_of_not_lt hlen) hfind, canJoin_new]

theorem mJoin_setHost (key : Bytes) (permitted invited : Bool) (now : Int)
    (hs : ∀ p, findChannel srv.table name = some p → SameLists cfg (srv.table.chan p) cl h) :
    mJoin cfg (setHost srv c h) c { cl with host := h } name key permitted invited now =
      setHost (mJoin cfg srv c cl name key permitted invited now) c h := by
  unfold mJoin
  by_cases hbad : (!checkChannelName name || name.length > locChannelLen || !isChannelName name ||
      !permitted) = true
  · rw [if_pos hbad, if_pos hbad]
  rw [if_neg hbad, if_neg hbad]
  simp only [Bool.or_eq_true, Bool.not_eq_true', not_or, Bool.not_eq_false, decide_eq_true_eq] at hbad
  obtain ⟨⟨⟨-, hlen⟩, hname⟩, -⟩ := hbad
  simp only [table_setHost]
  cases hfind : findChannel srv.table name with
  | some p =>
    simp only [canJoin_host (hs p hfind)]
    by_cases hmem : (srv.table.chan p).isMember c = true
    · rw [if_pos hmem, if_pos hmem]
    · rw [if_neg hmem, if_neg hmem]
      by_cases hcan : canJoin cfg (srv.table.chan p) cl key invited = true
      · rw [if_pos hcan, if_pos hcan]
        rfl
      · rw [if_neg hcan, if_neg hcan]
  | none =>
    simp only [getOrCreate_of_none hname (Nat.le_of_not_lt hlen) hfind, canJoin_new]
    by_cases hcan : canJoin cfg ((srv.table.add name now).chan srv.table.next) cl key invited = true
    · rw [if_pos hcan, if_pos hcan]
      rfl
    · rw [if_neg hcan, if_neg hcan]
      rfl

end Joins

-- ============================================================================
-- Steps and runs
-- ============================================================================

section Runs

variable {cfg : Config} {net : Net} {c : Nat} {h : Bytes} {cl : Client} {a : Act}

theorem changeNick_setHost (srv : Server) (cl : Client) (nick : Bytes) :
    Chan.changeNick (setHost srv c h) c { cl with host := h } nick =
      setHost (Chan.changeNick srv c cl nick) c h := by
  unfold Chan.changeNick Server.setClient setHost
  dsimp only
  rw [List.map_map, List.map_map]
  congr 1
  refine List.map_congr_left fun x _ => ?_
  show (if x.1 = c then (c, _) else (x.1, hide c h x.1 x.2)) = _
  by_cases hx : x.1 = c
  · simp [hx, hide]
  · simp [hx]

theorem msJoin_setHost (srv : Server) (ts name : Bytes) (now : Int) :
    msJoin (setHost srv c h) c ts name now = setHost (msJoin srv c ts name now) c h := by
  unfold msJoin
  split
  · rfl
  · rw [table_setHost]
    generalize getOrCreateChannel srv.table name now = g
    obtain ⟨t, o⟩ := g
    cases o <;> rfl

theorem nick_swap (hx : cl.cloaked = true) (nick : Bytes) :
    (swap net c h).nick c { cl with host := h } nick = swapped c h (net.nick c cl nick) := by
  refine Prod.ext ?_ (changeNick_swap hx nick)
  show ({ net with srv := Chan.changeNick (setHost net.srv c h) c { cl with host := h } nick } : Net) = _
  rw [changeNick_setHost]
  rfl

theorem join_swap (hx : cl.cloaked = true) (name key : Bytes) (permitted invited : Bool) (now : Int)
    (hs : ∀ p, findChannel net.srv.table name = some p → SameLists cfg (net.srv.table.chan p) cl h) :
    (swap net c h).join cfg c { cl with host := h } name key permitted invited now =
      swapped c h (net.join cfg c cl name key permitted invited now) := by
  have henters := mJoinEnters_setHost (c := c) key permitted invited now hs
  have hsrv := mJoin_setHost (c := c) key permitted invited now hs
  unfold Net.join
  simp only [swap, henters, hsrv]
  cases mJoinEnters cfg net.srv c cl name key permitted invited now with
  | none => rfl
  | some x => exact Prod.ext rfl (enterLocal_swap hx x.2 now)

theorem remoteJoin_swap (hx : cl.cloaked = true) (ts name : Bytes) (now : Int) :
    (swap net c h).remoteJoin c { cl with host := h } ts name now =
      swapped c h (net.remoteJoin c cl ts name now) := by
  have henters : msJoinEnters (setHost net.srv c h) name now = msJoinEnters net.srv name now := rfl
  unfold Net.remoteJoin
  simp only [swap, henters, msJoin_setHost]
  cases msJoinEnters net.srv name now with
  | none => rfl
  | some x =>
    refine Prod.ext ?_ (enterRemote_swap hx x.2.1 (atol ts) x.2.2)
    dsimp only [swapped]
    by_cases hmem : x.2.2.isMember c = true
    · rw [if_pos hmem, if_pos hmem]
      rfl
    · rw [if_neg hmem, if_neg hmem]
      rfl

theorem joinZero_swap (hx : cl.cloaked = true) :
    (swap net c h).joinZero c { cl with host := h } = swapped c h (net.joinZero c cl) :=
  Prod.ext rfl (doJoin0_swap hx _ _)

theorem exit_swap (net : Net) (cl : Client) :
    (swap net c h).exit c { cl with host := h } = swap (net.exit c cl) c h := by
  unfold Net.exit swap setHost
  dsimp only
  rw [List.filter_map]
  rfl

theorem map_guard {p : Prop} [Decidable p] (o : Option (Net × List Line)) :
    (if p then o.map (swapped c h) else none) = (if p then o else none).map (swapped c h) := by
  split <;> rfl

/-- A step on the server where the user has another host is the same step, and sends the
    same lines. -/
theorem step_swap (hx : Hidden net c) (hjoin : JoinsAlike cfg c h net a) :
    (swap net c h).step cfg c a = (net.step cfg c a).map (swapped c h) := by
  unfold Net.step
  show ((setHost net.srv c h).client c).bind _ = _
  rw [client_setHost]
  cases hcl : net.srv.client c with
  | none => rfl
  | some cl =>
    have hcloak := hx cl hcl
    rw [Option.map_some, Option.bind_some, Option.bind_some, hide_self]
    cases a with
    | localNick nick tooFast =>
      dsimp only
      rw [nick_swap hcloak]
      cases tooFast with
      | true => exact map_guard (some (net, []))
      | false => exact map_guard (some (net.nick c cl nick))
    | remoteNick nick =>
      dsimp only
      rw [nick_swap hcloak]
      exact map_guard (some _)
    | join name key permitted invited now =>
      dsimp only
      rw [join_swap hcloak name key permitted invited now fun p hp => hjoin cl p hcl hp]
      exact map_guard (some _)
    | remoteJoin ts name now =>
      dsimp only
      rw [remoteJoin_swap hcloak]
      exact map_guard (some _)
    | joinZero => exact congrArg some (joinZero_swap hcloak)
    | mode dest parv history now =>
      have hrun : (swap net c h).runMode { cl with host := h }
          (mMode cfg (swap net c h).srv { cl with host := h } dest ⟨c, parv, history, now⟩) = _ :=
        runMode_swap hcloak (sameCalls_mMode hcloak cfg dest _)
      dsimp only
      rw [hrun]
      exact map_guard _
    | tmode ts dest parv history now =>
      have hrun : (swap net c h).runMode { cl with host := h }
          (msTmode cfg (swap net c h).srv { cl with host := h } ts dest ⟨c, parv, history, now⟩) = _ :=
        runMode_swap hcloak (sameCalls_msTmode hcloak cfg ts dest _)
      dsimp only
      rw [hrun]
      exact map_guard _
    | exit comment =>
      exact congrArg some (Prod.ext (exit_swap net cl) (exitLines_swap hcloak comment))

theorem client_changeNick {srv : Server} {nick : Bytes} (hcl : srv.client c = some cl) :
    (Chan.changeNick srv c cl nick).client c = some { cl with name := nick } := by
  unfold Server.client at hcl
  obtain ⟨x, hfind, -⟩ := Option.map_eq_some_iff.mp hcl
  unfold Chan.changeNick Server.setClient Server.client
  dsimp only
  rw [List.find?_map, Option.map_map]
  have htest : ((fun x : Nat × Client => x.1 == c) ∘ fun x => if x.1 = c then (c, { cl with name := nick }) else x) =
      fun x => x.1 == c := by
    funext x
    by_cases hx : x.1 = c
    · simp [hx]
    · simp [hx]
  have hx : x.1 = c := by simpa using List.find?_some hfind
  rw [htest, hfind, Option.map_some, Function.comp_apply, if_pos hx]

theorem join_client (name key : Bytes) (permitted invited : Bool) (now : Int) :
    (net.join cfg c cl name key permitted invited now).1.srv.client c = net.srv.client c := by
  have hsrv : (net.join cfg c cl name key permitted invited now).1.srv =
      mJoin cfg net.srv c cl name key permitted invited now := by
    unfold Net.join
    dsimp only
    split <;> rfl
  rw [hsrv]
  unfold mJoin
  repeat' split
  all_goals rfl

theorem remoteJoin_client (ts name : Bytes) (now : Int) :
    (net.remoteJoin c cl ts name now).1.srv.client c = net.srv.client c := by
  have hsrv : (net.remoteJoin c cl ts name now).1.srv = msJoin net.srv c ts name now := by
    unfold Net.remoteJoin
    dsimp only
    split
    · rfl
    · dsimp only
      split <;> rfl
  rw [hsrv]
  unfold msJoin
  repeat' split
  all_goals rfl

theorem exit_client (cl : Client) : (net.exit c cl).srv.client c = none := by
  show Option.map _ ((net.srv.clients.filter fun x => x.1 != c).find? fun x => x.1 == c) = none
  rw [Option.map_eq_none_iff, List.find?_eq_none]
  intro x hx
  simpa using (List.mem_filter.mp hx).2

/-- The mode stays. -/
theorem Hidden.step (hx : Hidden net c) {r : Net × List Line} (hstep : net.step cfg c a = some r) :
    Hidden r.1 c := by
  have hnick : ∀ cl nick, net.srv.client c = some cl → Hidden (net.nick c cl nick).1 c := by
    intro cl nick hcl cl' hcl'
    obtain rfl := Option.some.inj ((client_changeNick hcl).symm.trans hcl')
    exact hx cl hcl
  have hmode : ∀ {cl o r}, net.runMode cl o = some r → Hidden r.1 c := by
    intro cl o r hrun
    cases o with
    | none =>
      obtain rfl := Option.some.inj hrun
      exact hx
    | some x =>
      obtain ⟨w, -, rfl⟩ := Option.map_eq_some_iff.mp hrun
      exact hx
  unfold Net.step at hstep
  obtain ⟨cl, hcl, hstep⟩ := Option.bind_eq_some_iff.mp hstep
  cases a with
  | localNick nick tooFast =>
    obtain ⟨-, hr⟩ := Option.ite_none_right_eq_some.mp hstep
    obtain rfl := Option.some.inj hr
    cases tooFast with
    | true => exact hx
    | false => exact hnick cl nick hcl
  | remoteNick nick =>
    obtain ⟨-, hr⟩ := Option.ite_none_right_eq_some.mp hstep
    obtain rfl := Option.some.inj hr
    exact hnick cl nick hcl
  | join name key permitted invited now =>
    obtain ⟨-, hr⟩ := Option.ite_none_right_eq_some.mp hstep
    obtain rfl := Option.some.inj hr
    exact fun cl' hcl' => hx cl' ((join_client name key permitted invited now).symm.trans hcl')
  | remoteJoin ts name now =>
    obtain ⟨-, hr⟩ := Option.ite_none_right_eq_some.mp hstep
    obtain rfl := Option.some.inj hr
    exact fun cl' hcl' => hx cl' ((remoteJoin_client ts name now).symm.trans hcl')
  | joinZero =>
    obtain rfl := Option.some.inj hstep
    exact hx
  | mode dest parv history now =>
    obtain ⟨-, hr⟩ := Option.ite_none_right_eq_some.mp hstep
    exact hmode hr
  | tmode ts dest parv history now =>
    obtain ⟨-, hr⟩ := Option.ite_none_right_eq_some.mp hstep
    exact hmode hr
  | exit comment =>
    obtain rfl := Option.some.inj hstep
    intro cl' hcl'
    rw [exit_client] at hcl'
    cases hcl'

/-- And so for whatever the user does. -/
theorem run_swap (acts : List Act) : ∀ net : Net, Hidden net c → AllAlike cfg c h net acts →
    (swap net c h).run cfg c acts = (net.run cfg c acts).map (swapped c h) := by
  induction acts with
  | nil => exact fun _ _ _ => rfl
  | cons a acts ih =>
    intro net hx halike
    rw [Net.run, Net.run, step_swap hx halike.1]
    cases hstep : net.step cfg c a with
    | none => rfl
    | some r =>
      rw [Option.map_some, Option.bind_some, Option.bind_some]
      show ((swap r.1 c h).run cfg c acts).map _ = _
      rw [ih r.1 (hx.step hstep) (halike.2 r hstep), Option.map_map, Option.map_map]
      rfl

end Runs

-- ============================================================================
-- What others learn
-- ============================================================================

/-- Servers that differ in nothing but the host of a user with `+x` send the same lines for
    all that the user does, if the lists of the channels it joins treat both hosts alike. -/
theorem lines_of_hidden {cfg : Config} {net : Net} {c : Nat} {cl : Client} {h : Bytes}
    {acts : List Act} (hcl : net.srv.client c = some cl) (hx : cl.cloaked = true)
    (halike : AllAlike cfg c h net acts) :
    ((swap net c h).run cfg c acts).map Prod.snd = (net.run cfg c acts).map Prod.snd := by
  have hhidden : Hidden net c := by
    intro cl' hcl'
    obtain rfl := Option.some.inj (hcl.symm.trans hcl')
    exact hx
  rw [run_swap acts net hhidden halike, Option.map_map]
  rfl

/-- The user `alice` with `+x`: the host `h` is shown as `v`. -/
def masked : Client := { alice with cloaked := true, virthost := [118] }

/-- `alice` is in no channel; `bob`, who is local here, has banned the host `h` from `#` and
    monitors `alice` and `al`. -/
def bannedNet : Net where
  srv := ⟨(Table.start.add [35] 1).setChan 0 { allocateChannel [35] 1 with
      members := [⟨1, chflChanop, 0⟩], banlist := [⟨[42, 33, 42, 64, 104], [], 1⟩] },
    [(1, { bob with myConnect := true }), (0, masked)], 2⟩
  me := [109]
  servptr := fun _ => [109]
  watching := fun nick => if nick = [97, 108] ∨ nick = masked.name then [1] else []
  channel := fun c => if c = 1 then [0] else []
  ioError := fun _ => false

/-- The same with both in the channel, and a ban on the host `z`. -/
def sharedNet : Net := { bannedNet with
  srv := { bannedNet.srv with table := bannedNet.srv.table.setChan 0 { allocateChannel [35] 1 with
    members := [⟨0, 0, 0⟩, ⟨1, chflChanop, 0⟩], banlist := [⟨[42, 33, 42, 64, 122], [], 1⟩] } }
  channel := fun c => if c < 2 then [0] else [] }

/-- A new nick, `JOIN 0`, `JOIN #` and an exit, with the host `h` and with `i`. -/
theorem lines_of_masked :
    sharedNet.srv.client 0 = some masked ∧ masked.cloaked = true ∧
      ((swap sharedNet 0 [105]).run plainConfig 0
          [.localNick [97, 108] false, .joinZero, .join [35] [] true false 2, .exit [98]]).map Prod.snd =
        (sharedNet.run plainConfig 0
          [.localNick [97, 108] false, .joinZero, .join [35] [] true false 2, .exit [98]]).map Prod.snd := by
  refine ⟨rfl, rfl, @lines_of_hidden plainConfig sharedNet 0 masked [105] _ rfl rfl ?_⟩
  refine ⟨trivial, fun r hr => ⟨trivial, fun s hs => ⟨?_, fun _ _ => ⟨trivial, fun _ _ => trivial⟩⟩⟩⟩
  obtain rfl := Option.some.inj hr
  obtain rfl := Option.some.inj hs
  intro cl p hcl hp
  obtain rfl := Option.some.inj hcl
  obtain rfl : 0 = p := Option.some.inj (Eq.trans (by decide) hp)
  exact ⟨by decide, by decide⟩

/-- What a client is sent. -/
def linesTo (d : Nat) (ls : List Line) : List Line := ls.filter fun l => l.1 == d

/-- `bob` sees `alice` join unless her host is the banned one, sees her host when services
    change her nick, and sees it when she is introduced. -/
theorem not_same_lines :
    ((swap bannedNet 0 [105]).step plainConfig 0 (.join [35] [] true false 2)).map (linesTo 1 ·.2) ≠
        (bannedNet.step plainConfig 0 (.join [35] [] true false 2)).map (linesTo 1 ·.2) ∧
      linesTo 1 ((swap sharedNet 0 [105]).meRsfnc 0 { masked with host := [105] } [97, 108]) ≠
        linesTo 1 (sharedNet.meRsfnc 0 masked [97, 108]) ∧
      linesTo 1 (bannedNet.registerClient { masked with host := [105] }) ≠
        linesTo 1 (bannedNet.registerClient masked) := by
  decide

end Bluebox.Cloak
