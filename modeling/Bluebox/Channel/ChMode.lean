/-
  Bluebox.Channel.ChMode

  Channel modes (`modules/core/m_mode.c`): the handlers of the mode letters,
  `set_channel_mode`, which walks the letters of a command, and the masks of a
  `BMASK`.

  The lines sent to members and servers are left out; `mode_changes`, from which
  they are built, is kept.
-/
import Bluebox.Channel.Bans

namespace Bluebox.Chan

open Bluebox.Lib

-- ============================================================================
-- Masks and keys
-- ============================================================================

/-- `check_string`. -/
def checkString (s : Bytes) : Bytes := if s = [] then [star] else s.takeWhile fun b => !isSpace b

/-- A part of a mask that is missing stands for anything. -/
def orSplat (s : Bytes) : Bytes := if s = [] then [star] else s

/-- The nick, user and host of a mask. -/
def maskParts (mask : Bytes) : Bytes × Bytes × Bytes :=
  match strchr 64 mask with
  | some (left, host) =>
    match strchr 33 left with
    | some (nick, user) => (orSplat nick, orSplat user, orSplat host)
    | none => ([star], orSplat left, orSplat host)
  | none =>
    match strchr 33 mask with
    | some (nick, user) => (orSplat nick, orSplat user, [star])
    | none =>
      if mask.contains 46 || mask.contains 58 then ([star], [star], orSplat mask)
      else (orSplat mask, [star], [star])

/-- `pretty_mask`, with the new `mask_pos`; none stands for NULL. -/
def prettyMask (maskPos : Nat) (idmask : Bytes) : Option (Bytes × Nat) :=
  let mask := collapse (checkString idmask)
  if bufSize - maskPos < mask.length + 5 then none
  else
    let (nick, user, host) := maskParts mask
    let r := userHost (nick.take (nickLen - 1)) (user.take userLen) (host.take hostLen)
    some (r, maskPos + r.length + 1)

/-- `fix_key`. -/
def fixKey (arg : Bytes) : Bytes :=
  (arg.map (· &&& 0x7f)).filter fun c => c != 58 && c != 44 && 32 < c

/-- `fix_key_remote`.  A byte 0x80 becomes the end of the string. -/
def fixKeyRemote (arg : Bytes) : Bytes :=
  ((arg.map (· &&& 0x7f)).filter fun c =>
    c != 10 && c != 58 && c != 44 && c != 13 && c != 32).takeWhile (· != 0)

-- ============================================================================
-- The state of the walk
-- ============================================================================

/-- `MODE_ADD`, `MODE_DEL` and `MODE_QUERY`. -/
inductive Dir
  | add
  | del
  | query
deriving DecidableEq, Repr

/-- The access of the source: `CHFL_PEON`, `CHFL_HALFOP` or `CHFL_CHANOP`. -/
inductive Access
  | peon
  | halfop
  | chanop
deriving DecidableEq, Repr

/-- The capabilities a change is sent to. -/
inductive ChangeCaps
  | any
  | ex
  | ie
  | service
deriving DecidableEq, Repr

/-- Who is shown a change. -/
inductive Mems
  | allMembers
  | onlyChanops
  | onlyServers
deriving DecidableEq, Repr

/-- The argument of a change is a pointer: to a text, to the key of the channel
    or to the static buffer of the limit, both of which can change later. -/
inductive ChangeArg
  | null
  | text (s : Bytes)
  | key
  | limitstr
deriving DecidableEq, Repr

/-- `struct ChModeChange`. -/
structure ChModeChange where
  letter : UInt8
  dir : Dir
  caps : ChangeCaps
  mems : Mems
  id : Option Bytes
  arg : ChangeArg
  client : Option Nat
deriving DecidableEq, Repr

/-- What is fixed during one `set_channel_mode`: the source, its access, the
    parameters (the letters are the first) and `find_chasing`. -/
structure Call where
  cfg : Config
  sourceP : Nat
  source : Client
  alevel : Access
  parv : List Bytes
  findChasing : Bytes → Option (Nat × Client)
  now : Int

/-- What the handlers change. -/
structure Walk where
  ch : Channel
  dir : Dir
  parn : Nat
  errors : UInt32
  modeLimit : Nat
  maskPos : Nat
  modeChanges : List ChModeChange
  limitstr : Bytes

/-- `SM_ERR_` bits. -/
def smErrNoops : UInt32 := 0x002
def smErrUnknown : UInt32 := 0x004
def smErrRplB : UInt32 := 0x010
def smErrRplE : UInt32 := 0x020
def smErrNotonchannel : UInt32 := 0x040
def smErrRplI : UInt32 := 0x100

/-- Remember that an error was reported. -/
def Walk.err (w : Walk) (e : UInt32) : Walk := { w with errors := w.errors ||| e }

/-- Append to `mode_changes`. -/
def Walk.push (w : Walk) (m : ChModeChange) : Walk := { w with modeChanges := w.modeChanges ++ [m] }

/-- The next parameter. -/
def Walk.arg (w : Walk) (call : Call) : Bytes := call.parv.getD w.parn []

/-- `MyClient(source_p) && (++mode_limit > n)`: the walk, counted, or none over
    the limit. -/
def Walk.count (w : Walk) (call : Call) (n : Nat) : Walk × Bool :=
  if call.source.myClient then ({ w with modeLimit := w.modeLimit + 1 }, w.modeLimit + 1 > n)
  else (w, false)

-- ============================================================================
-- The handlers
-- ============================================================================

/-- `chm_nosuch`. -/
def chmNosuch (w : Walk) : Walk := w.err smErrUnknown

/-- Set or clear a bit of the mode word. -/
def Walk.setBit (w : Walk) (bit : UInt32) : Walk :=
  { w with ch := { w.ch with mode := { w.ch.mode with mode := w.ch.mode.mode ||| bit } } }

def Walk.clearBit (w : Walk) (bit : UInt32) : Walk :=
  { w with ch := { w.ch with mode := { w.ch.mode with mode := w.ch.mode.mode &&& ~~~bit } } }

/-- `chm_simple`. -/
def chmSimple (call : Call) (c : UInt8) (modeType : UInt32) (halfop : Bool) (w : Walk) : Walk :=
  if call.alevel = .peon ∨ (!halfop ∧ call.alevel = .halfop) then w.err smErrNoops
  else
    let (w, full) := w.count call (9 + maxModeParams)
    if full then w
    else if w.dir = .add ∧ w.ch.mode.mode &&& modeType = 0 then
      (w.setBit modeType).push ⟨c, .add, .any, .allMembers, none, .null, none⟩
    else if w.dir = .del ∧ w.ch.mode.mode &&& modeType ≠ 0 then
      (w.clearBit modeType).push ⟨c, .del, .any, .allMembers, none, .null, none⟩
    else w

/-- `chm_regonly`. -/
def chmRegonly (call : Call) (c : UInt8) (w : Walk) : Walk :=
  if call.alevel ≠ .chanop then w.err smErrNoops
  else
    match w.dir with
    | .query => w
    | .add =>
      if w.ch.mode.mode &&& modeRegonly ≠ 0 then w
      else (w.setBit modeRegonly).push ⟨c, .add, .service, .allMembers, none, .null, none⟩
    | .del =>
      if w.ch.mode.mode &&& modeRegonly = 0 then w
      else (w.clearBit modeRegonly).push ⟨c, .del, .service, .allMembers, none, .null, none⟩

/-- `chm_sslonly`. -/
def chmSslonly (call : Call) (c : UInt8) (w : Walk) : Walk :=
  if call.alevel ≠ .chanop then w.err smErrNoops
  else
    match w.dir with
    | .query => w
    | .add =>
      if w.ch.mode.mode &&& modeSslonly ≠ 0 then w
      else if call.source.myClient && !call.cfg.useSslonly then w
      else (w.setBit modeSslonly).push ⟨c, .add, .any, .allMembers, none, .null, none⟩
    | .del =>
      if w.ch.mode.mode &&& modeSslonly = 0 then w
      else (w.clearBit modeSslonly).push ⟨c, .del, .any, .allMembers, none, .null, none⟩

/-- Write the limit. -/
def Walk.setLimit (w : Walk) (limit : Int) : Walk :=
  { w with ch := { w.ch with mode := { w.ch.mode with limit := limit } } }

/-- `chm_limit`. -/
def chmLimit (call : Call) (c : UInt8) (w : Walk) : Walk :=
  if call.alevel ≠ .chanop then w.err smErrNoops
  else
    match w.dir with
    | .query => w
    | .add =>
      if w.parn < call.parv.length then
        let lstr := w.arg call
        let w := { w with parn := w.parn + 1 }
        if lstr = [] ∨ atoi lstr ≤ 0 then w
        else
          ({ w with limitstr := fmtInt (atoi lstr) }.push
            ⟨c, .add, .any, .allMembers, none, .limitstr, none⟩).setLimit (atoi lstr)
      else w
    | .del =>
      if w.ch.mode.limit = 0 then w
      else (w.setLimit 0).push ⟨c, .del, .any, .allMembers, none, .null, none⟩

/-- Write the key. -/
def Walk.setKey (w : Walk) (key : Bytes) : Walk :=
  { w with ch := { w.ch with mode := { w.ch.mode with key := key } } }

/-- The key of an earlier `+k` is gone once `-k` clears it. -/
def splatKeys (l : List ChModeChange) : List ChModeChange :=
  l.map fun m => if m.letter = 107 ∧ m.dir = .add then { m with arg := .text [star] } else m

/-- `chm_key`. -/
def chmKey (call : Call) (c : UInt8) (w : Walk) : Walk :=
  if call.alevel ≠ .chanop then w.err smErrNoops
  else
    match w.dir with
    | .query => w
    | .add =>
      if w.parn < call.parv.length then
        let key := if call.source.myClient then fixKey (w.arg call) else fixKeyRemote (w.arg call)
        let w := { w with parn := w.parn + 1 }
        if key = [] then w
        else
          (w.setKey (strlcpy key keyLen)).push ⟨c, .add, .any, .allMembers, none, .key, none⟩
      else w
    | .del =>
      let w := if w.parn < call.parv.length then { w with parn := w.parn + 1 } else w
      if w.ch.mode.key = [] then w
      else
        ({ w with modeChanges := splatKeys w.modeChanges }.setKey []).push
          ⟨c, .del, .any, .allMembers, none, .text [star], none⟩

/-- How a member status is changed: its bit, whether gaining it ends a deop, the
    access it needs, and when it can not be changed. -/
structure StatusMode where
  bit : UInt8
  undeop : Bool
  allowed : Access → Bool
  refuseAdd : Call → Nat → Bool
  refuseDel : Call → Client → Bool
  delLetter : UInt8 → UInt8

/-- The common body of `chm_op`, `chm_halfop` and `chm_voice`. -/
def chmStatus (st : StatusMode) (call : Call) (c : UInt8) (w : Walk) : Walk :=
  if !st.allowed call.alevel then w.err smErrNoops
  else if w.dir = .query ∨ call.parv.length ≤ w.parn then w
  else
    let nick := w.arg call
    let w := { w with parn := w.parn + 1 }
    if nick = [] then w
    else
      match call.findChasing nick with
      | none => w
      | some (targ, targP) =>
        match w.ch.findMembership targ with
        | none => w.err smErrNotonchannel
        | some m =>
          let (w, full) := w.count call maxModeParams
          if full then w
          else if w.dir = .add then
            if st.refuseAdd call targ || m.flags &&& st.bit != 0 then w
            else
              let w := w.push ⟨c, .add, .any, .allMembers, some targP.id, .text targP.name, some targ⟩
              { w with ch := w.ch.modifyMember targ fun m =>
                  if st.undeop then { m with flags := (m.flags ||| st.bit) &&& ~~~chflDeopped }
                  else { m with flags := m.flags ||| st.bit } }
          else if m.flags &&& st.bit = 0 then w
          else if st.refuseDel call targP then w
          else
            let w := w.push
              ⟨st.delLetter c, .del, .any, .allMembers, some targP.id, .text targP.name, some targ⟩
            { w with ch := w.ch.modifyMember targ fun m =>
                { m with flags := m.flags &&& ~~~st.bit } }

/-- `chm_op`: nobody ops himself, and local sources do not deop a service. -/
def chmOp : Call → UInt8 → Walk → Walk :=
  chmStatus ⟨chflChanop, true, (· == .chanop), fun call targ => targ == call.sourceP,
    fun call targ => call.source.myClient && targ.service, id⟩

/-- `chm_halfop`. -/
def chmHalfop : Call → UInt8 → Walk → Walk :=
  chmStatus ⟨chflHalfop, true, (· == .chanop), fun _ _ => false, fun _ _ => false, id⟩

/-- `chm_voice`. -/
def chmVoice : Call → UInt8 → Walk → Walk :=
  chmStatus ⟨chflVoice, false, (· != .peon), fun _ _ => false, fun _ _ => false, fun _ => 118⟩

/-- The error bit of a list. -/
def BanType.errorval : BanType → UInt32
  | .ban => smErrRplB
  | .exception => smErrRplE
  | .invex => smErrRplI

/-- The capabilities of a list. -/
def BanType.caps : BanType → ChangeCaps
  | .ban => .any
  | .exception => .ex
  | .invex => .ie

/-- Whether a list is in use. -/
def BanType.used (cfg : Config) : BanType → Bool
  | .ban => true
  | .exception => cfg.useExcept
  | .invex => cfg.useInvex

/-- Who is shown a change of a list. -/
def BanType.mems (cfg : Config) (k : BanType) (dir : Dir) : Mems :=
  if k = .ban then .allMembers
  else if k.used cfg || dir == .del then .onlyChanops
  else .onlyServers

/-- The first part of `chm_ban`: the mask to add or remove, with the parameter
    it was made of.  None stands for the `strlen` of NULL. -/
def banRequest (call : Call) (k : BanType) (w : Walk) : Option (Walk × Option (Bytes × Bytes)) :=
  -- a list that is disabled takes no entry from a local source
  if !k.used call.cfg && call.source.myClient && w.dir == .add && w.parn < call.parv.length then
    some (w, none)
  else if w.dir = .query ∨ call.parv.length ≤ w.parn then
    if w.errors &&& k.errorval ≠ 0 then some (w, none)
    else if call.alevel ≠ .chanop ∧ k ≠ .ban then some ((w.err k.errorval).err smErrNoops, none)
    else some (w.err k.errorval, none)
  else if call.alevel ≠ .chanop then some (w.err smErrNoops, none)
  else
    let (w, full) := w.count call maxModeParams
    if full then some (w, none)
    else
      let raw := w.arg call
      let w := { w with parn := w.parn + 1 }
      if raw = [] ∨ raw.head? = some 58 then some (w, none)
      else if !call.source.myClient then
        if raw.contains 32 || raw.length > modeBufLen - 2 then some (w, none)
        else some (w, some (raw, raw))
      else
        match prettyMask w.maskPos raw with
        | none => none
        | some (mask, pos) =>
          let w := { w with maskPos := pos }
          if mask.length > modeBufLen - 2 then some (w, none) else some (w, some (mask, raw))

/-- The second part of `chm_ban`. -/
def applyBan (call : Call) (c : UInt8) (k : BanType) (w : Walk) (mask raw : Bytes) : Walk :=
  if w.dir = .add then
    match addId call.cfg w.ch call.source mask k call.now with
    | none => w
    | some ch =>
      { w with ch := ch }.push ⟨c, .add, k.caps, k.mems call.cfg .add, none, .text mask, none⟩
  else
    -- the mask as it was given may be what is listed
    match delId w.ch mask k with
    | some ch =>
      { w with ch := ch }.push ⟨c, .del, k.caps, k.mems call.cfg .del, none, .text mask, none⟩
    | none =>
      match delId w.ch raw k with
      | some ch =>
        { w with ch := ch }.push ⟨c, .del, k.caps, k.mems call.cfg .del, none, .text raw, none⟩
      | none => w.push ⟨c, .del, k.caps, k.mems call.cfg .del, none, .text mask, none⟩

/-- `chm_ban`. -/
def chmBan (call : Call) (c : UInt8) (k : BanType) (w : Walk) : Option Walk :=
  match banRequest call k w with
  | none => none
  | some (w, none) => some w
  | some (w, some (mask, raw)) => some (applyBan call c k w mask raw)

-- ============================================================================
-- The walk
-- ============================================================================

/-- The list a letter is about. -/
def banLetter (c : UInt8) : Option BanType :=
  if c = 98 then some .ban else if c = 101 then some .exception else if c = 73 then some .invex
  else none

/-- `ModeTable`, for the letters that are not about a list. -/
def modeTable (call : Call) (c : UInt8) (w : Walk) : Walk :=
  match c.toNat with
  | 83 => chmSslonly call c w                      -- S
  | 104 => chmHalfop call c w                      -- h
  | 105 => chmSimple call c modeInviteonly false w -- i
  | 107 => chmKey call c w                         -- k
  | 108 => chmLimit call c w                       -- l
  | 109 => chmSimple call c modeModerated true w   -- m
  | 110 => chmSimple call c modeNoprivmsgs true w  -- n
  | 111 => chmOp call c w                          -- o
  | 112 => chmSimple call c modePrivate false w    -- p
  | 114 => chmRegonly call c w                     -- r
  | 115 => chmSimple call c modeSecret false w     -- s
  | 116 => chmSimple call c modeTopiclimit true w  -- t
  | 118 => chmVoice call c w                       -- v
  | 120 => chmSimple call c modeSpamplease false w -- x
  | _ => chmNosuch w

/-- One letter of the command. -/
def letterStep (call : Call) (c : UInt8) (w : Walk) : Option Walk :=
  if c = 43 then some { w with dir := .add }
  else if c = 45 then some { w with dir := .del }
  else if c = 61 then some { w with dir := .query }
  else
    match banLetter c with
    | some k => chmBan call c k w
    | none => some (modeTable call c w)

/-- The letters of the command, from left to right. -/
def letters (call : Call) : Bytes → Walk → Option Walk
  | [], w => some w
  | c :: cs, w =>
    match letterStep call c w with
    | none => none
    | some w' => letters call cs w'

/-- Where the walk begins. -/
def Walk.start (ch : Channel) : Walk := ⟨ch, .add, 1, 0, 0, 0, [], []⟩

/-- `set_channel_mode`; none stands for a crash. -/
def setChannelMode (call : Call) (ch : Channel) : Option Walk :=
  letters call (call.parv.getD 0 []) (Walk.start ch)

/-- `get_channel_access`. -/
def getChannelAccess (source : Client) (msptr : Option Membership) : Access :=
  if !source.myClient || msptr.any (·.isChanop) then .chanop
  else if msptr.any (·.isHalfop) then .halfop
  else .peon

-- ============================================================================
-- BMASK
-- ============================================================================

/-- The masks of a `BMASK`: those with a leading colon are skipped, and one that
    is too long ends the list. -/
def bmaskMasks (s : Bytes) : List Bytes :=
  (((s.splitOn 32).filter (· ≠ [])).takeWhile fun t =>
    t.head? == some 58 || t.length ≤ modeBufLen).filter fun t => t.head? ≠ some 58

/-- Add one mask after the other. -/
def bmaskWalk (cfg : Config) (source : Client) (k : BanType) (now : Int) (ch : Channel)
    (masks : List Bytes) : Channel :=
  masks.foldl (fun ch mask => (addId cfg ch source mask k now).getD ch) ch

end Bluebox.Chan
