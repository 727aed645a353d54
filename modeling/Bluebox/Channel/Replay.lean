/-
  Bluebox.Channel.Replay

  `mode_changes` tells what a `MODE` command did.

  The handlers change the channel and record what they change in two different places, and
  some of what they record is a pointer to what a later letter overwrites: the key of the
  channel and the text of the limit.  Carried out again, in order and with the texts as they
  are in the end, the records still lead from the channel as it was to the channel as it is.
-/
import Bluebox.Channel.ModeLine

namespace Bluebox.Replay

open Bluebox.Lib Bluebox.Chan
open Bluebox.ModeLine (prettyText prettyText_length_le_max prettyMask_eq)

-- ============================================================================
-- What a mode command is about
-- ============================================================================

/-- The status flags of a member. -/
def statusFlags : UInt8 := chflChanop ||| chflHalfop ||| chflVoice

/-- What `MODE` can change about a channel: the mode word, the limit and the key, the status
    of each member and the masks of each list. -/
@[ext] structure View where
  mode : UInt32
  limit : Int
  key : Bytes
  status : List (Nat × UInt8)
  lists : BanType → List Bytes

/-- The view of a channel. -/
def view (ch : Channel) : View where
  mode := ch.mode.mode
  limit := ch.mode.limit
  key := ch.mode.key
  status := ch.members.map fun m => (m.clientP, m.flags &&& statusFlags)
  lists := fun k => (ch.list k).map (·.banstr)

/-- A change as it can be read in a line. -/
structure Change where
  letter : UInt8
  dir : Dir
  arg : Bytes

section Apply

variable (holder : Bytes → Option Nat) (v : View) (m : Change)

/-- A simple mode. -/
def View.setMode (bit : UInt32) : View :=
  { v with mode := if m.dir = .add then v.mode ||| bit else v.mode &&& ~~~bit }

/-- The status of the member with the given nick. -/
def View.setStatus (bit : UInt8) : View :=
  { v with status := v.status.map fun x =>
      if holder m.arg = some x.1 then (x.1, if m.dir = .add then x.2 ||| bit else x.2 &&& ~~~bit) else x }

/-- A mask is added in front, or the first that compares equal is removed. -/
def View.setList (k : BanType) : View :=
  let l := if m.dir = .add then m.arg :: v.lists k else (v.lists k).eraseP fun b => irccmp m.arg b == 0
  { v with lists := Function.update v.lists k l }

/-- Carry out a change; `holder` tells who has a nick. -/
def View.apply : View :=
  match m.letter.toNat with
  | 73 => v.setList m .invex
  | 83 => v.setMode m modeSslonly
  | 98 => v.setList m .ban
  | 101 => v.setList m .exception
  | 104 => v.setStatus holder m chflHalfop
  | 105 => v.setMode m modeInviteonly
  | 107 => { v with key := if m.dir = .add then m.arg else [] }
  | 108 => { v with limit := if m.dir = .add then atoi m.arg else 0 }
  | 109 => v.setMode m modeModerated
  | 110 => v.setMode m modeNoprivmsgs
  | 111 => v.setStatus holder m chflChanop
  | 112 => v.setMode m modePrivate
  | 114 => v.setMode m modeRegonly
  | 115 => v.setMode m modeSecret
  | 116 => v.setMode m modeTopiclimit
  | 118 => v.setStatus holder m chflVoice
  | 120 => v.setMode m modeSpamplease
  | _ => v

end Apply

/-- Carry out changes, one after the other. -/
def replay (holder : Bytes → Option Nat) (l : List Change) (v : View) : View :=
  l.foldl (fun v m => v.apply holder m) v

/-- What a pointer points to when the lines are built. -/
def readArg (key limitstr : Bytes) : ChangeArg → Bytes
  | .null => []
  | .text s => s
  | .key => key
  | .limitstr => limitstr

/-- A record as the lines show it. -/
def readChange (key limitstr : Bytes) (m : ChModeChange) : Change :=
  ⟨m.letter, m.dir, readArg key limitstr m.arg⟩

/-- `mode_changes` as the lines show it. -/
def changes (w : Walk) : List Change := w.modeChanges.map (readChange w.ch.mode.key w.limitstr)

/-- Who has a nick. -/
def holder (srv : Server) (nick : Bytes) : Option Nat :=
  (srv.search fun c => irccmp nick c.name == 0).map (·.1)

/-- No two clients have the same name. -/
def NamesDistinct (srv : Server) : Prop :=
  ∀ x ∈ srv.clients, ∀ y ∈ srv.clients, irccmp x.2.name y.2.name = 0 → x.1 = y.1

-- ============================================================================
-- Changes that differ in a key or a limit
-- ============================================================================

/-- Two changes that are the same up to the argument, and that only for one letter. -/
def SameBut (c : UInt8) (m m' : Change) : Prop :=
  m.letter = m'.letter ∧ m.dir = m'.dir ∧ (m.letter ≠ c → m.arg = m'.arg)

/-- Two views that differ at most in the key, or at most in the limit. -/
def View.noKey (v : View) : View := { v with key := [] }
def View.noLimit (v : View) : View := { v with limit := 0 }

section Apart

variable {who : Bytes → Option Nat} {v v' : View} {m m' : Change}

theorem SameBut.eq {c : UInt8} (h : SameBut c m m') (hc : m.letter ≠ c) : m = m' := by
  obtain ⟨letter, dir, arg⟩ := m
  obtain ⟨letter', dir', arg'⟩ := m'
  obtain ⟨rfl, rfl, harg⟩ := h
  exact congrArg (Change.mk letter dir) (harg hc)

theorem apply_key (h : m.letter = 107) :
    v.apply who m = { v with key := if m.dir = .add then m.arg else [] } := by
  simp [View.apply, h]

theorem apply_limit (h : m.letter = 108) :
    v.apply who m = { v with limit := if m.dir = .add then atoi m.arg else 0 } := by
  simp [View.apply, h]

/-- Only `k` touches the key. -/
theorem noKey_apply (h : m.letter ≠ 107) : (v.apply who m).noKey = v.noKey.apply who m := by
  have h' : m.letter.toNat ≠ 107 := fun hn => h (UInt8.toNat_inj.mp hn)
  unfold View.apply
  split <;> first | rfl | contradiction

/-- Only `l` touches the limit. -/
theorem noLimit_apply (h : m.letter ≠ 108) : (v.apply who m).noLimit = v.noLimit.apply who m := by
  have h' : m.letter.toNat ≠ 108 := fun hn => h (UInt8.toNat_inj.mp hn)
  unfold View.apply
  split <;> first | rfl | contradiction

/-- Changes that differ in the argument of one letter leave the same of a view, up to what that letter writes. -/
theorem replay_apart {c : UInt8} {f : View → View}
    (hother : ∀ v m, m.letter ≠ c → f (v.apply who m) = (f v).apply who m)
    (hletter : ∀ v m, m.letter = c → f (v.apply who m) = f v) {l l' : List Change}
    (h : List.Forall₂ (SameBut c) l l') (hv : f v = f v') : f (replay who l v) = f (replay who l' v') := by
  induction h generalizing v v' with
  | nil => exact hv
  | @cons m m' l l' hm _ ih =>
    refine ih ?_
    by_cases hc : m.letter = c
    · rw [hletter v m hc, hletter v' m' (hm.1 ▸ hc), hv]
    · obtain rfl := hm.eq hc
      rw [hother v m hc, hother v' m hc, hv]

theorem noKey_replay {l l' : List Change} (h : List.Forall₂ (SameBut 107) l l') (hv : v.noKey = v'.noKey) :
    (replay who l v).noKey = (replay who l' v').noKey :=
  replay_apart (fun _ _ hc => noKey_apply hc) (fun _ _ hc => by rw [apply_key hc]; rfl) h hv

theorem noLimit_replay {l l' : List Change} (h : List.Forall₂ (SameBut 108) l l')
    (hv : v.noLimit = v'.noLimit) : (replay who l v).noLimit = (replay who l' v').noLimit :=
  replay_apart (fun _ _ hc => noLimit_apply hc) (fun _ _ hc => by rw [apply_limit hc]; rfl) h hv

end Apart

-- ============================================================================
-- The records of a walk
-- ============================================================================

/-- Only `k` and `l` point to the key and to the text of the limit. -/
def ArgOk (m : ChModeChange) : Prop :=
  (m.arg = .key → m.letter = 107) ∧ (m.arg = .limitstr → m.letter = 108)

/-- The records so far lead from a view to the channel. -/
structure Recorded (who : Bytes → Option Nat) (v : View) (w : Walk) : Prop where
  args : ∀ m ∈ w.modeChanges, ArgOk m
  eq : replay who (changes w) v = view w.ch

section Records

variable {who : Bytes → Option Nat} {v : View} {w w' : Walk} {m : ChModeChange}

theorem argOk_of_ne (hkey : m.arg ≠ .key) (hlimit : m.arg ≠ .limitstr) : ArgOk m :=
  ⟨fun h => absurd h hkey, fun h => absurd h hlimit⟩

theorem replay_append (l : List Change) (x : Change) (v : View) :
    replay who (l ++ [x]) v = (replay who l v).apply who x := by
  rw [replay, List.foldl_append]
  rfl

theorem sameBut_limitstr (hm : ArgOk m) (key s s' : Bytes) :
    SameBut 108 (readChange key s m) (readChange key s' m) := by
  refine ⟨rfl, rfl, fun hne => ?_⟩
  show readArg key s m.arg = readArg key s' m.arg
  cases harg : m.arg with
  | limitstr => exact absurd (hm.2 harg) hne
  | null => rfl
  | text t => rfl
  | key => rfl

theorem sameBut_key (hm : ArgOk m) (key key' s : Bytes) :
    SameBut 107 (readChange key s m) (readChange key' s m) := by
  refine ⟨rfl, rfl, fun hne => ?_⟩
  show readArg key s m.arg = readArg key' s m.arg
  cases harg : m.arg with
  | key => exact absurd (hm.1 harg) hne
  | null => rfl
  | text t => rfl
  | limitstr => rfl

/-- The patch of `chm_key` changes arguments of `k` only. -/
theorem splatKeys_spec {l : List ChModeChange} (hl : ∀ m ∈ l, ArgOk m) (key key' s : Bytes) :
    (∀ m ∈ splatKeys l, ArgOk m) ∧
      List.Forall₂ (SameBut 107) ((splatKeys l).map (readChange key s)) (l.map (readChange key' s)) := by
  induction l with
  | nil => exact ⟨fun m hm => absurd hm List.not_mem_nil, .nil⟩
  | cons m l ih =>
    obtain ⟨hm, hl⟩ := List.forall_mem_cons.mp hl
    obtain ⟨hargs, hsame⟩ := ih hl
    have hhead : splatKeys (m :: l) =
        (if m.letter = 107 ∧ m.dir = .add then { m with arg := .text [star] } else m) :: splatKeys l := rfl
    rw [hhead]
    split
    · rename_i hk
      refine ⟨List.forall_mem_cons.mpr ⟨?_, hargs⟩, .cons ⟨rfl, rfl, fun hne => absurd hk.1 hne⟩ hsame⟩
      simp [ArgOk]
    · exact ⟨List.forall_mem_cons.mpr ⟨hm, hargs⟩, .cons (sameBut_key hm key key' s) hsame⟩

/-- Nothing is recorded and nothing changes. -/
theorem Recorded.skip (h : Recorded who v w) (hchanges : w'.modeChanges = w.modeChanges)
    (hstr : w'.limitstr = w.limitstr) (hch : w'.ch = w.ch) : Recorded who v w' := by
  refine ⟨hchanges ▸ h.args, ?_⟩
  rw [changes, hchanges, hstr, hch]
  exact h.eq

/-- A change is recorded that neither key nor limit is part of. -/
theorem Recorded.push (h : Recorded who v w) (hchanges : w'.modeChanges = w.modeChanges ++ [m])
    (hstr : w'.limitstr = w.limitstr) (hkey : w'.ch.mode.key = w.ch.mode.key) (hm : ArgOk m)
    (hview : view w'.ch = (view w.ch).apply who (readChange w.ch.mode.key w.limitstr m)) :
    Recorded who v w' := by
  constructor
  · rw [hchanges]
    exact List.forall_mem_append.mpr ⟨h.args, by simpa using hm⟩
  · rw [changes, hchanges, hstr, hkey, List.map_append, List.map_singleton, replay_append, hview]
    exact congrArg (View.apply who · _) h.eq

/-- A limit is recorded; earlier ones read the same from now on. -/
theorem Recorded.limit (h : Recorded who v w) {limit : Int} (hint : atoi (fmtInt limit) = limit)
    (caps : ChangeCaps) (mems : Mems) :
    Recorded who v (({ w with limitstr := fmtInt limit }.push
      ⟨108, .add, caps, mems, none, .limitstr, none⟩).setLimit limit) := by
  constructor
  · refine List.forall_mem_append.mpr ⟨h.args, ?_⟩
    simp [ArgOk]
  · have hrest : (replay who (w.modeChanges.map (readChange w.ch.mode.key (fmtInt limit))) v).noLimit =
        (view w.ch).noLimit := by
      rw [← h.eq]
      refine noLimit_replay ?_ rfl
      rw [List.forall₂_map_left_iff, changes, List.forall₂_map_right_iff, List.forall₂_same]
      exact fun m hm => sameBut_limitstr (h.args m hm) _ _ _
    show replay who ((w.modeChanges ++ _).map (readChange w.ch.mode.key (fmtInt limit))) v = _
    rw [List.map_append, List.map_singleton, replay_append, apply_limit rfl]
    show { View.noLimit (replay who _ v) with limit := atoi (fmtInt limit) } = _
    rw [hrest, hint]
    rfl

/-- A key is recorded; earlier ones read the same from now on. -/
theorem Recorded.key (h : Recorded who v w) (key : Bytes) (caps : ChangeCaps) (mems : Mems) :
    Recorded who v ((w.setKey key).push ⟨107, .add, caps, mems, none, .key, none⟩) := by
  constructor
  · refine List.forall_mem_append.mpr ⟨h.args, ?_⟩
    simp [ArgOk]
  · have hrest : (replay who (w.modeChanges.map (readChange key w.limitstr)) v).noKey = (view w.ch).noKey := by
      rw [← h.eq]
      refine noKey_replay ?_ rfl
      rw [List.forall₂_map_left_iff, changes, List.forall₂_map_right_iff, List.forall₂_same]
      exact fun m hm => sameBut_key (h.args m hm) _ _ _
    show replay who ((w.modeChanges ++ _).map (readChange key w.limitstr)) v = _
    rw [List.map_append, List.map_singleton, replay_append, apply_key rfl]
    show { View.noKey (replay who _ v) with key := key } = _
    rw [hrest]
    rfl

/-- The key is gone, and earlier records of it are patched. -/
theorem Recorded.unkey (h : Recorded who v w) (arg : Bytes) (caps : ChangeCaps) (mems : Mems) :
    Recorded who v (({ w with modeChanges := splatKeys w.modeChanges }.setKey []).push
      ⟨107, .del, caps, mems, none, .text arg, none⟩) := by
  obtain ⟨hargs, hsame⟩ := splatKeys_spec h.args [] w.ch.mode.key w.limitstr
  constructor
  · refine List.forall_mem_append.mpr ⟨hargs, ?_⟩
    simp [ArgOk]
  · have hrest : (replay who ((splatKeys w.modeChanges).map (readChange [] w.limitstr)) v).noKey =
        (view w.ch).noKey := by
      rw [← h.eq]
      exact noKey_replay hsame rfl
    show replay who ((splatKeys w.modeChanges ++ _).map (readChange [] w.limitstr)) v = _
    rw [List.map_append, List.map_singleton, replay_append, apply_key rfl]
    show View.noKey (replay who _ v) = _
    rw [hrest]
    rfl

end Records

-- ============================================================================
-- The handlers
-- ============================================================================

section Handlers

variable {call : Call} {who : Bytes → Option Nat} {v : View} {w : Walk} {c : UInt8}

theorem Recorded.count (h : Recorded who v w) (n : Nat) : Recorded who v (w.count call n).1 := by
  unfold Walk.count
  split
  · exact h.skip rfl rfl rfl
  · exact h

theorem Recorded.setBit (h : Recorded who v w) {bit : UInt32}
    (hbit : ∀ u x, x.letter = c → View.apply who u x = u.setMode x bit) (caps : ChangeCaps) (mems : Mems) :
    Recorded who v ((w.setBit bit).push ⟨c, .add, caps, mems, none, .null, none⟩) := by
  refine h.push rfl rfl rfl (argOk_of_ne nofun nofun) ?_
  rw [hbit _ _ rfl]
  rfl

theorem Recorded.clearBit (h : Recorded who v w) {bit : UInt32}
    (hbit : ∀ u x, x.letter = c → View.apply who u x = u.setMode x bit) (caps : ChangeCaps) (mems : Mems) :
    Recorded who v ((w.clearBit bit).push ⟨c, .del, caps, mems, none, .null, none⟩) := by
  refine h.push rfl rfl rfl (argOk_of_ne nofun nofun) ?_
  rw [hbit _ _ rfl]
  rfl

theorem chmSimple_recorded (h : Recorded who v w) {modeType : UInt32} (halfop : Bool)
    (hbit : ∀ u x, x.letter = c → View.apply who u x = u.setMode x modeType) :
    Recorded who v (chmSimple call c modeType halfop w) := by
  unfold chmSimple
  split
  · exact h.skip rfl rfl rfl
  have hcount : Recorded who v (w.count call (9 + maxModeParams)).1 := h.count _
  generalize w.count call (9 + maxModeParams) = counted at hcount
  obtain ⟨w', full⟩ := counted
  dsimp only at hcount ⊢
  split
  · exact hcount
  split
  · exact hcount.setBit hbit _ _
  split
  · exact hcount.clearBit hbit _ _
  · exact hcount

theorem chmRegonly_recorded (h : Recorded who v w)
    (hbit : ∀ u x, x.letter = c → View.apply who u x = u.setMode x modeRegonly) :
    Recorded who v (chmRegonly call c w) := by
  unfold chmRegonly
  split
  · exact h.skip rfl rfl rfl
  split
  · exact h
  · split
    · exact h
    · exact h.setBit hbit _ _
  · split
    · exact h
    · exact h.clearBit hbit _ _

theorem chmSslonly_recorded (h : Recorded who v w)
    (hbit : ∀ u x, x.letter = c → View.apply who u x = u.setMode x modeSslonly) :
    Recorded who v (chmSslonly call c w) := by
  unfold chmSslonly
  split
  · exact h.skip rfl rfl rfl
  split
  · exact h
  · split
    · exact h
    split
    · exact h
    · exact h.setBit hbit _ _
  · split
    · exact h
    · exact h.clearBit hbit _ _

theorem chmLimit_recorded (h : Recorded who v w) (hc : c = 108) : Recorded who v (chmLimit call c w) := by
  subst hc
  unfold chmLimit
  split
  · exact h.skip rfl rfl rfl
  split
  · exact h
  · split
    · have htook : Recorded who v { w with parn := w.parn + 1 } := h.skip rfl rfl rfl
      dsimp only
      split
      · exact htook
      · exact htook.limit (atoi_fmtInt (toInt32_isInt32 _)) _ _
    · exact h
  · split
    · exact h
    · refine h.push rfl rfl rfl (argOk_of_ne nofun nofun) ?_
      rw [apply_limit rfl]
      rfl

theorem chmKey_recorded (h : Recorded who v w) (hc : c = 107) : Recorded who v (chmKey call c w) := by
  subst hc
  unfold chmKey
  split
  · exact h.skip rfl rfl rfl
  split
  · exact h
  · split
    · have htook : Recorded who v { w with parn := w.parn + 1 } := h.skip rfl rfl rfl
      generalize (if call.source.myClient then fixKey (w.arg call) else fixKeyRemote (w.arg call)) = key
      dsimp only
      split
      · exact htook
      · exact htook.key _ _ _
    · exact h
  · have htook : Recorded who v (if w.parn < call.parv.length then { w with parn := w.parn + 1 } else w) := by
      split
      · exact h.skip rfl rfl rfl
      · exact h
    dsimp only
    generalize (if w.parn < call.parv.length then { w with parn := w.parn + 1 } else w) = w' at htook
    split
    · exact htook
    · exact htook.unkey _ _ _

end Handlers

-- ============================================================================
-- Member status
-- ============================================================================

theorem and_statusFlags_or (x bit : UInt8) (h : bit &&& statusFlags = bit) :
    (x ||| bit) &&& statusFlags = (x &&& statusFlags) ||| bit := by
  have hdistrib : (x ||| bit) &&& statusFlags = (x &&& statusFlags) ||| (bit &&& statusFlags) := by
    refine UInt8.toBitVec_inj.1 (BitVec.eq_of_getElem_eq fun i hi => ?_)
    simp only [UInt8.toBitVec_and, UInt8.toBitVec_or, BitVec.getElem_and, BitVec.getElem_or,
      Bool.and_or_distrib_right]
  rw [hdistrib, h]

theorem and_statusFlags_and (x y : UInt8) : (x &&& y) &&& statusFlags = (x &&& statusFlags) &&& y := by
  rw [UInt8.and_assoc, UInt8.and_comm y, UInt8.and_assoc]

/-- The flag of a deop is no status. -/
theorem and_not_deopped (x : UInt8) : (x &&& ~~~chflDeopped) &&& statusFlags = x &&& statusFlags := by
  rw [UInt8.and_assoc]
  rfl

/-- A member's flags are written. -/
theorem status_modifyMember {ch : Channel} {targ : Nat} {f : Membership → Membership} {g : UInt8 → UInt8}
    (hclient : ∀ m, (f m).clientP = m.clientP)
    (hflags : ∀ m, (f m).flags &&& statusFlags = g (m.flags &&& statusFlags)) :
    (view (ch.modifyMember targ f)).status =
      (view ch).status.map fun x => if x.1 = targ then (x.1, g x.2) else x := by
  show (ch.members.map _).map _ = (ch.members.map _).map _
  rw [List.map_map, List.map_map]
  refine List.map_congr_left fun m _ => ?_
  show ((if m.clientP = targ then f m else m).clientP, _) = _
  by_cases hm : m.clientP = targ
  · simp only [Function.comp_apply, if_pos hm, hclient, hflags]
  · simp only [Function.comp_apply, if_neg hm]

section Status

variable {call : Call} {who : Bytes → Option Nat} {v : View} {w : Walk} {c : UInt8}

theorem Recorded.status (h : Recorded who v w) {targ : Nat} {id name : Bytes} {dir : Dir} {bit : UInt8}
    {f : Membership → Membership} (hwho : who name = some targ)
    (hbit : ∀ u x, x.letter = c → View.apply who u x = u.setStatus who x bit)
    (hclient : ∀ m, (f m).clientP = m.clientP)
    (hflags : ∀ m, (f m).flags &&& statusFlags =
      if dir = .add then (m.flags &&& statusFlags) ||| bit else (m.flags &&& statusFlags) &&& ~~~bit) :
    Recorded who v { w.push ⟨c, dir, .any, .allMembers, some id, .text name, some targ⟩ with
      ch := w.ch.modifyMember targ f } := by
  refine h.push rfl rfl rfl (argOk_of_ne nofun nofun) ?_
  rw [hbit _ _ rfl]
  refine View.ext rfl rfl rfl ?_ rfl
  refine (status_modifyMember hclient
    (g := fun x => if dir = .add then x ||| bit else x &&& ~~~bit) hflags).trans ?_
  refine List.map_congr_left fun x _ => ?_
  show _ = if who name = some x.1 then _ else x
  rw [hwho]
  by_cases hx : x.1 = targ
  · have hsome : some targ = some x.1 := by rw [hx]
    rw [if_pos hx, if_pos hsome]
    rfl
  · rw [if_neg hx, if_neg fun h => hx (Option.some.inj h).symm]

theorem chmStatus_recorded (h : Recorded who v w) {st : StatusMode}
    (hwho : ∀ nick targ targP, call.findChasing nick = some (targ, targP) → who targP.name = some targ)
    (hbit : ∀ u x, x.letter = c → View.apply who u x = u.setStatus who x st.bit)
    (hdel : st.delLetter c = c) (hflag : st.bit &&& statusFlags = st.bit) :
    Recorded who v (chmStatus st call c w) := by
  unfold chmStatus
  split
  · exact h.skip rfl rfl rfl
  split
  · exact h
  have htook : Recorded who v { w with parn := w.parn + 1 } := h.skip rfl rfl rfl
  dsimp only
  split
  · exact htook
  split
  · exact htook
  rename_i targ targP hfind
  split
  · exact htook.skip rfl rfl rfl
  rename_i m hm
  have hcount : Recorded who v (Walk.count _ call maxModeParams).1 := htook.count maxModeParams
  generalize Walk.count _ call maxModeParams = counted at hcount
  obtain ⟨w', full⟩ := counted
  dsimp only at hcount ⊢
  split
  · exact hcount
  split
  · split
    · exact hcount
    · refine hcount.status (hwho _ _ _ hfind) hbit (fun m => ?_) fun m => ?_
      · split <;> rfl
      · rw [if_pos rfl]
        split
        · rw [and_not_deopped, and_statusFlags_or _ _ hflag]
        · exact and_statusFlags_or _ _ hflag
  split
  · exact hcount
  split
  · exact hcount
  · rw [hdel]
    refine hcount.status (hwho _ _ _ hfind) hbit (fun m => rfl) fun m => ?_
    rw [if_neg nofun]
    exact and_statusFlags_and _ _

end Status

-- ============================================================================
-- The lists
-- ============================================================================

section Lists

variable {call : Call} {who : Bytes → Option Nat} {v : View} {w w' : Walk} {c : UInt8} {k : BanType}

/-- A list is written. -/
theorem view_setList (ch : Channel) (l : List Ban) (e : ListEvent) (k : BanType) :
    view ((ch.setList l k).bumpFor e k) =
      { view ch with lists := Function.update (view ch).lists k (l.map (·.banstr)) } := by
  refine View.ext ?_ ?_ ?_ ?_ (funext fun j => ?_)
  · exact congrArg Mode.mode (mode_setList_bumpFor ch l e k)
  · exact congrArg Mode.limit (mode_setList_bumpFor ch l e k)
  · exact congrArg Mode.key (mode_setList_bumpFor ch l e k)
  · exact congrArg (List.map _) (members_setList_bumpFor ch l e k)
  · show (((ch.setList l k).bumpFor e k).list j).map _ = Function.update (view ch).lists k _ j
    by_cases hj : j = k
    · subst hj
      rw [list_setList_bumpFor, Function.update_self]
    · rw [list_setList_bumpFor_of_ne ch l e k hj, Function.update_of_ne hj]
      rfl

theorem Recorded.addId (h : Recorded who v w) {mask : Bytes} {ch : Channel} {mems : Mems}
    (hlist : ∀ u x, x.letter = c → View.apply who u x = u.setList x k) (hlen : mask.length < banLen)
    (hadd : Chan.addId call.cfg w.ch call.source mask k call.now = some ch) :
    Recorded who v ({ w with ch := ch }.push ⟨c, .add, k.caps, mems, none, .text mask, none⟩) := by
  obtain ⟨-, rfl⟩ := addId_eq_some hadd
  refine h.push rfl rfl (congrArg Mode.key (mode_setList_bumpFor _ _ _ _)) (argOk_of_ne nofun nofun) ?_
  refine (view_setList _ _ _ _).trans ?_
  rw [hlist _ _ rfl, List.map_cons, allocateBan, strlcpy_of_lt hlen]
  rfl

theorem Recorded.delId (h : Recorded who v w) {mask : Bytes} {ch : Channel} {mems : Mems}
    (hlist : ∀ u x, x.letter = c → View.apply who u x = u.setList x k)
    (hdel : Chan.delId w.ch mask k = some ch) :
    Recorded who v ({ w with ch := ch }.push ⟨c, .del, k.caps, mems, none, .text mask, none⟩) := by
  obtain rfl := delId_eq_some hdel
  refine h.push rfl rfl (congrArg Mode.key (mode_setList_bumpFor _ _ _ _)) (argOk_of_ne nofun nofun) ?_
  refine (view_setList _ _ _ _).trans ?_
  rw [hlist _ _ rfl]
  refine View.ext rfl rfl rfl rfl ?_
  show Function.update (view w.ch).lists k _ = Function.update (view w.ch).lists k (if Dir.del = .add then _ else _)
  rw [if_neg nofun]
  refine congrArg (Function.update (view w.ch).lists k) ?_
  show _ = ((w.ch.list k).map (·.banstr)).eraseP fun b => irccmp mask b == 0
  rw [List.eraseP_map]
  rfl

/-- A removal that found nothing is recorded all the same; it still finds nothing. -/
theorem Recorded.delNone (h : Recorded who v w) {mask : Bytes} {mems : Mems}
    (hlist : ∀ u x, x.letter = c → View.apply who u x = u.setList x k) (hne : mask ≠ [])
    (hdel : Chan.delId w.ch mask k = none) :
    Recorded who v (w.push ⟨c, .del, k.caps, mems, none, .text mask, none⟩) := by
  refine h.push rfl rfl rfl (argOk_of_ne nofun nofun) ?_
  rw [Chan.delId, if_neg hne] at hdel
  split at hdel
  · cases hdel
  rename_i hany
  have herase : ((view w.ch).lists k).eraseP (fun b => irccmp mask b == 0) = (view w.ch).lists k := by
    refine List.eraseP_of_forall_not fun b hb hirc => hany ?_
    obtain ⟨ban, hban, rfl⟩ := List.mem_map.mp hb
    exact List.any_eq_true.mpr ⟨ban, hban, hirc⟩
  rw [hlist _ _ rfl]
  refine View.ext rfl rfl rfl rfl ?_
  show (view w.ch).lists = Function.update (view w.ch).lists k (if Dir.del = .add then _ else _)
  rw [if_neg nofun]
  refine (Function.update_eq_self_iff.mpr ?_).symm
  exact herase

/-- The first part of `chm_ban` changes nothing yet, and the mask of a local user is what
    `pretty_mask` writes. -/
theorem banRequest_local (hmy : call.source.myClient = true) {r : Option (Bytes × Bytes)}
    (hreq : banRequest call k w = some (w', r)) :
    w'.modeChanges = w.modeChanges ∧ w'.limitstr = w.limitstr ∧ w'.ch = w.ch ∧
      ∀ mask raw, r = some (mask, raw) → mask = prettyText raw := by
  unfold banRequest at hreq
  split at hreq
  · obtain ⟨rfl, rfl⟩ := Prod.mk.inj (Option.some.inj hreq)
    exact ⟨rfl, rfl, rfl, nofun⟩
  split at hreq
  · split at hreq
    · obtain ⟨rfl, rfl⟩ := Prod.mk.inj (Option.some.inj hreq)
      exact ⟨rfl, rfl, rfl, nofun⟩
    split at hreq
    · obtain ⟨rfl, rfl⟩ := Prod.mk.inj (Option.some.inj hreq)
      exact ⟨rfl, rfl, rfl, nofun⟩
    · obtain ⟨rfl, rfl⟩ := Prod.mk.inj (Option.some.inj hreq)
      exact ⟨rfl, rfl, rfl, nofun⟩
  split at hreq
  · obtain ⟨rfl, rfl⟩ := Prod.mk.inj (Option.some.inj hreq)
    exact ⟨rfl, rfl, rfl, nofun⟩
  simp only [Walk.count, hmy, if_true] at hreq
  split at hreq
  · obtain ⟨rfl, rfl⟩ := Prod.mk.inj (Option.some.inj hreq)
    exact ⟨rfl, rfl, rfl, nofun⟩
  split at hreq
  · obtain ⟨rfl, rfl⟩ := Prod.mk.inj (Option.some.inj hreq)
    exact ⟨rfl, rfl, rfl, nofun⟩
  rw [if_neg (by decide), prettyMask_eq] at hreq
  split at hreq
  · cases hreq
  rename_i mask pos hmask
  split at hmask
  · cases hmask
  obtain ⟨rfl, rfl⟩ := Prod.mk.inj (Option.some.inj hmask)
  split at hreq
  · obtain ⟨rfl, rfl⟩ := Prod.mk.inj (Option.some.inj hreq)
    exact ⟨rfl, rfl, rfl, nofun⟩
  · obtain ⟨rfl, rfl⟩ := Prod.mk.inj (Option.some.inj hreq)
    refine ⟨rfl, rfl, rfl, fun mask raw h => ?_⟩
    obtain ⟨rfl, rfl⟩ := Prod.mk.inj (Option.some.inj h)
    rfl

theorem prettyText_ne_nil (raw : Bytes) : prettyText raw ≠ [] := by
  unfold prettyText
  generalize maskParts (collapse (checkString raw)) = parts
  obtain ⟨nick, user, host⟩ := parts
  simp [userHost]

theorem chmBan_recorded (h : Recorded who v w) (hmy : call.source.myClient = true)
    (hlist : ∀ u x, x.letter = c → View.apply who u x = u.setList x k)
    (hban : chmBan call c k w = some w') : Recorded who v w' := by
  unfold chmBan at hban
  split at hban
  · cases hban
  · rename_i w₁ hreq
    obtain ⟨hchanges, hstr, hch, -⟩ := banRequest_local hmy hreq
    obtain rfl := Option.some.inj hban
    exact h.skip hchanges hstr hch
  · rename_i w₁ mask raw hreq
    obtain ⟨hchanges, hstr, hch, hmask⟩ := banRequest_local hmy hreq
    obtain rfl := hmask mask raw rfl
    obtain rfl := Option.some.inj hban
    have h₁ : Recorded who v w₁ := h.skip hchanges hstr hch
    unfold applyBan
    split
    · split
      · exact h₁
      · rename_i ch hadd
        refine h₁.addId hlist ?_ hadd
        exact Nat.lt_of_le_of_lt (prettyText_length_le_max raw) (by decide)
    · split
      · rename_i ch hdel
        exact h₁.delId hlist hdel
      · rename_i hnone
        split
        · rename_i ch hdel
          exact h₁.delId hlist hdel
        · exact h₁.delNone hlist (prettyText_ne_nil raw) hnone

end Lists

-- ============================================================================
-- The whole command
-- ============================================================================

section Command

variable {call : Call} {who : Bytes → Option Nat} {v : View} {w w' : Walk} {c : UInt8}

theorem modeTable_recorded (h : Recorded who v w)
    (hwho : ∀ nick targ targP, call.findChasing nick = some (targ, targP) → who targP.name = some targ) :
    Recorded who v (modeTable call c w) := by
  unfold modeTable
  split
  case h_1 hc => exact chmSslonly_recorded h fun u x hx => by simp [View.apply, hx, hc]
  case h_2 hc => exact chmStatus_recorded h hwho (fun u x hx => by simp [View.apply, hx, hc]) rfl rfl
  case h_3 hc => exact chmSimple_recorded h _ fun u x hx => by simp [View.apply, hx, hc]
  case h_4 hc => exact chmKey_recorded h (UInt8.toNat_inj.mp hc)
  case h_5 hc => exact chmLimit_recorded h (UInt8.toNat_inj.mp hc)
  case h_6 hc => exact chmSimple_recorded h _ fun u x hx => by simp [View.apply, hx, hc]
  case h_7 hc => exact chmSimple_recorded h _ fun u x hx => by simp [View.apply, hx, hc]
  case h_8 hc => exact chmStatus_recorded h hwho (fun u x hx => by simp [View.apply, hx, hc]) rfl rfl
  case h_9 hc => exact chmSimple_recorded h _ fun u x hx => by simp [View.apply, hx, hc]
  case h_10 hc => exact chmRegonly_recorded h fun u x hx => by simp [View.apply, hx, hc]
  case h_11 hc => exact chmSimple_recorded h _ fun u x hx => by simp [View.apply, hx, hc]
  case h_12 hc => exact chmSimple_recorded h _ fun u x hx => by simp [View.apply, hx, hc]
  case h_13 hc =>
    refine chmStatus_recorded h hwho (fun u x hx => by simp [View.apply, hx, hc]) ?_ rfl
    exact (UInt8.toNat_inj.mp hc).symm
  case h_14 hc => exact chmSimple_recorded h _ fun u x hx => by simp [View.apply, hx, hc]
  case h_15 => exact h.skip rfl rfl rfl

/-- A letter of a list. -/
theorem apply_banLetter {k : BanType} (hk : banLetter c = some k) (u : View) (x : Change)
    (hx : x.letter = c) : u.apply who x = u.setList x k := by
  unfold banLetter at hk
  split at hk
  · rename_i hc
    obtain rfl := Option.some.inj hk
    simp [View.apply, hx, hc]
  split at hk
  · rename_i hc
    obtain rfl := Option.some.inj hk
    simp [View.apply, hx, hc]
  split at hk
  · rename_i hc
    obtain rfl := Option.some.inj hk
    simp [View.apply, hx, hc]
  · cases hk

theorem Recorded.step (h : Recorded who v w) (hmy : call.source.myClient = true)
    (hwho : ∀ nick targ targP, call.findChasing nick = some (targ, targP) → who targP.name = some targ)
    (hstep : letterStep call c w = some w') : Recorded who v w' := by
  unfold letterStep at hstep
  split at hstep
  · obtain rfl := Option.some.inj hstep
    exact h.skip rfl rfl rfl
  split at hstep
  · obtain rfl := Option.some.inj hstep
    exact h.skip rfl rfl rfl
  split at hstep
  · obtain rfl := Option.some.inj hstep
    exact h.skip rfl rfl rfl
  split at hstep
  · rename_i k hk
    exact chmBan_recorded h hmy (apply_banLetter hk) hstep
  · obtain rfl := Option.some.inj hstep
    exact modeTable_recorded h hwho

theorem Recorded.letters (hmy : call.source.myClient = true)
    (hwho : ∀ nick targ targP, call.findChasing nick = some (targ, targP) → who targP.name = some targ) :
    ∀ (cs : Bytes) (w : Walk), Recorded who v w → Chan.letters call cs w = some w' → Recorded who v w' := by
  intro cs
  induction cs with
  | nil =>
    intro w h hrun
    obtain rfl := Option.some.inj hrun
    exact h
  | cons c cs ih =>
    intro w h hrun
    rw [Chan.letters] at hrun
    cases hstep : letterStep call c w with
    | none =>
      rw [hstep] at hrun
      cases hrun
    | some w₁ =>
      rw [hstep] at hrun
      exact ih w₁ (h.step hmy hwho hstep) hrun

end Command

theorem mem_of_findNamedClient {srv : Server} {name : Bytes} {x : Nat × Client}
    (h : findNamedClient srv name = some x) : x ∈ srv.clients := by
  unfold findNamedClient at h
  split at h
  · cases h
  · exact List.mem_of_find?_eq_some h

theorem mem_of_findChasing {srv : Server} {source : Client} (hmy : source.myClient = true)
    {history : Bytes → Option Nat} {nick : Bytes} {x : Nat × Client}
    (h : findChasing srv source history nick = some x) : x ∈ srv.clients := by
  unfold findChasing at h
  rw [hmy, if_pos rfl] at h
  dsimp only at h
  split at h
  · exact mem_of_findNamedClient (Option.eq_some_of_filter_eq_some h)
  · -- The history gives an address, and `x` is the client there.
    obtain ⟨c, -, hc⟩ := Option.bind_eq_some_iff.mp h
    obtain ⟨cl, hcl, rfl⟩ := Option.map_eq_some_iff.mp hc
    obtain ⟨y, hy, rfl⟩ := Option.map_eq_some_iff.mp hcl
    have haddr : y.1 = c := by simpa using List.find?_some hy
    rw [← haddr]
    exact List.mem_of_find?_eq_some hy

/-- Whoever `find_chasing` finds is the holder of his name. -/
theorem holder_of_findChasing {srv : Server} (hnames : NamesDistinct srv) {source targP : Client}
    (hmy : source.myClient = true) {history : Bytes → Option Nat} {nick : Bytes} {targ : Nat}
    (h : findChasing srv source history nick = some (targ, targP)) : holder srv targP.name = some targ := by
  have hmem := mem_of_findChasing hmy h
  unfold holder Server.search
  cases hfind : srv.clients.find? fun x => irccmp targP.name x.2.name == 0 with
  | none =>
    have hself := List.find?_eq_none.mp hfind _ hmem
    simp [irccmp_self] at hself
  | some x =>
    have hx := List.find?_some hfind
    have hxmem := List.mem_of_find?_eq_some hfind
    have haddr : targ = x.1 := hnames _ hmem x hxmem (by simpa using hx)
    rw [Option.map_some, haddr]

/-- Carried out again, the records of a command of a local user lead from the channel as it
    was to the channel as it is. -/
theorem replay_modeChanges {cfg : Config} {srv : Server} {source : Client} {msptr : Option Membership}
    {a : ModeArgs} {ch : Channel} {w : Walk} (hnames : NamesDistinct srv) (hmy : source.myClient = true)
    (hrun : setChannelMode (modeCall cfg srv source msptr a) ch = some w) :
    replay (holder srv) (changes w) (view ch) = view w.ch := by
  refine (Recorded.letters hmy (fun nick targ targP hfind => ?_) _ (Walk.start ch) ?_ hrun).eq
  · exact holder_of_findChasing hnames hmy hfind
  · exact ⟨fun m hm => absurd hm List.not_mem_nil, rfl⟩

/-- `+kl-k+k a 5 a b` by `alice`. -/
def keysCall : Call :=
  modeCall plainConfig ModeLine.hashServer alice ((ModeLine.hashServer.table.chan 0).findMembership 0)
    ⟨0, [[43, 107, 108, 45, 107, 43, 107], [97], [53], [97], [98]], fun _ => none, 20⟩

/-- The records are `+k *`, `+l 5`, `-k *` and `+k b`. -/
theorem replay_keysCall : ∃ w, setChannelMode keysCall (ModeLine.hashServer.table.chan 0) = some w ∧
    (changes w).map (·.arg) = [[42], [53], [42], [98]] ∧
    replay (holder ModeLine.hashServer) (changes w) (view (ModeLine.hashServer.table.chan 0)) = view w.ch := by
  have hargs : (setChannelMode keysCall (ModeLine.hashServer.table.chan 0)).map
      (fun w => (changes w).map (·.arg)) = some [[42], [53], [42], [98]] := by decide
  obtain ⟨w, hrun, hw⟩ := Option.map_eq_some_iff.mp hargs
  have hnames : NamesDistinct ModeLine.hashServer := by
    unfold NamesDistinct
    decide
  exact ⟨w, hrun, hw, replay_modeChanges hnames rfl hrun⟩

end Bluebox.Replay
