/-
  Bluebox.Umode.Basic

  User modes: `user_mode`, `send_umode` and the start of a user's modes in
  `libratboxcore/s_user.c`, `oper_up` of `modules/m_oper.c` and the mode loop of
  `register_client` in `modules/core/m_nick.c`.

  A word of modes is a function on the modes, one bit each.  `Count` holds the counters
  that these functions keep by hand.
-/
import Mathlib.Logic.Function.Basic
import Bluebox.Lib.CString

namespace Bluebox.Umode

-- ============================================================================
-- Modes
-- ============================================================================

/-- The `UMODE_` bits. -/
inductive UMode
  | servnotice | cconn | rej | skill | full | spy | debug | nchange | wallop | operwall
  | invisible | bots | external | callerid | unauth | locops | operspy | cconnext
  | service | deaf | oper | admin | noidle | regonly | crypthost | helpop | spamnotice
  | ilikespam
deriving DecidableEq, Repr

/-- A word of modes. -/
abbrev Modes := UMode → Bool

/-- `user_modes`. -/
def userModes : List (UMode × UInt8) :=
  [(.admin, 97), (.bots, 98), (.cconn, 99), (.cconnext, 67), (.debug, 100), (.deaf, 68),
   (.external, 69), (.full, 102), (.callerid, 103), (.helpop, 104), (.invisible, 105),
   (.noidle, 73), (.skill, 107), (.locops, 108), (.spamnotice, 109), (.nchange, 110),
   (.oper, 111), (.ilikespam, 113), (.rej, 114), (.regonly, 82), (.servnotice, 115),
   (.service, 83), (.unauth, 117), (.wallop, 119), (.crypthost, 120), (.spy, 121),
   (.operwall, 122), (.operspy, 90)]

/-- `user_modes_from_c_to_bitmask`, with none for 0. -/
def userModeBitmask (c : UInt8) : Option UMode :=
  match c with
  | 67 => some .cconnext
  | 68 => some .deaf
  | 69 => some .external
  | 73 => some .noidle
  | 82 => some .regonly
  | 83 => some .service
  | 90 => some .operspy
  | 97 => some .admin
  | 98 => some .bots
  | 99 => some .cconn
  | 100 => some .debug
  | 102 => some .full
  | 103 => some .callerid
  | 104 => some .helpop
  | 105 => some .invisible
  | 107 => some .skill
  | 108 => some .locops
  | 109 => some .spamnotice
  | 110 => some .nchange
  | 111 => some .oper
  | 113 => some .ilikespam
  | 114 => some .rej
  | 115 => some .servnotice
  | 117 => some .unauth
  | 119 => some .wallop
  | 120 => some .crypthost
  | 121 => some .spy
  | 122 => some .operwall
  | _ => none

/-- `SEND_UMODES`. -/
def sendUmodes : Modes
  | .invisible | .oper | .wallop | .admin | .service | .deaf | .noidle | .regonly
  | .crypthost | .spy | .helpop | .ilikespam => true
  | _ => false

/-- `DEFAULT_OPER_UMODES`. -/
def defaultOperUmodes : Modes
  | .servnotice | .operwall | .wallop | .locops => true
  | _ => false

/-- `ALL_UMODES`. -/
def allUmodes : Modes
  | .servnotice | .cconn | .rej | .skill | .full | .nchange | .operwall | .debug | .bots
  | .external | .locops | .unauth | .callerid | .spamnotice | .operspy | .cconnext
  | .deaf => true
  | m => sendUmodes m

/-- The bits of both words. -/
def Modes.union (u v : Modes) : Modes := fun m => u m || v m

/-- The bits of a word that a mask lets through. -/
def Modes.inter (u v : Modes) : Modes := fun m => u m && v m

/-- The bits of a word that a mask does not have. -/
def Modes.diff (u v : Modes) : Modes := fun m => u m && !v m

/-- Some bit is set. -/
def Modes.any (u : Modes) : Bool := userModes.any fun e => u e.1

/-- `MODE_ADD` and `MODE_DEL`. -/
inductive What
  | add
  | del
deriving DecidableEq, Repr

/-- A bit is set or cleared. -/
def Modes.put (u : Modes) (m : UMode) : What → Modes
  | .add => Function.update u m true
  | .del => Function.update u m false

-- ============================================================================
-- Clients
-- ============================================================================

/-- The `OPER_` flags. -/
inductive OperFlag
  | encrypted | kline | unkline | lockill | globkill | remote | gline | xline | resv | nicks
  | rehash | die | admin | hadmin | operwall | invis | spy | remoteban | needssl | spamnotice
deriving DecidableEq, Repr

/-- `OPER_FLAGS`. -/
def operFlags : OperFlag → Bool
  | .encrypted | .needssl => false
  | _ => true

/-- The status of a client. -/
inductive Status
  | me
  | unknown
  | server
  | client
deriving DecidableEq, Repr

/-- The fields of `struct Client` that the functions read.  `service` says that its
    server is on `service_list`. -/
structure Client where
  status : Status
  myConnect : Bool
  umodes : Modes
  operflags : OperFlag → Bool
  ipSpoof : Bool
  inet6 : Bool
  service : Bool

/-- The configuration. -/
structure Config where
  operOnlyUmodes : Modes
  operUmodes : Modes
  defaultInvisible : Bool
  defaultCloak : Bool

/-- `struct oper_conf`. -/
structure OperConf where
  flags : OperFlag → Bool
  umodes : Modes

/-- The counters of `LUSERS`. -/
structure Count where
  total : Int
  oper : Int
  invisi : Int
deriving DecidableEq

/-- The test of the `invisi` counter for a change of modes. -/
def Count.seen (n : Count) (old new : Modes) : Count :=
  if !old .invisible && new .invisible then { n with invisi := n.invisi + 1 }
  else if old .invisible && !new .invisible then { n with invisi := n.invisi - 1 }
  else n

/-- A bit of a client is set or cleared. -/
def Client.putMode (c : Client) (m : UMode) (what : What) : Client :=
  { c with umodes := c.umodes.put m what }

/-- A bit of a client is set or cleared under a condition. -/
def Client.putIf (c : Client) (b : Bool) (m : UMode) (what : What) : Client :=
  if b then c.putMode m what else c

/-- `IsOperAdmin`. -/
def Client.isOperAdmin (c : Client) : Bool := c.operflags .admin || c.operflags .hadmin

/-- `ClearOper` and what a local user loses with it. -/
def Client.deop (cfg : Config) (c : Client) : Client :=
  let umodes := (c.umodes.put .oper .del).put .admin .del
  if c.myConnect then
    { c with umodes := umodes.diff cfg.operOnlyUmodes,
             operflags := fun f => c.operflags f && !operFlags f }
  else { c with umodes := umodes }

-- ============================================================================
-- user_mode
-- ============================================================================

/-- The parser of `user_mode`. -/
structure Parse where
  what : What
  client : Client
  oper : Int
  badflag : Bool

/-- A mode is set or cleared. -/
def Parse.putMode (p : Parse) (m : UMode) : Parse := { p with client := p.client.putMode m p.what }

/-- `badflag = YES`. -/
def Parse.bad (p : Parse) : Parse := { p with badflag := true }

/-- One letter.  `viaServer` is `IsServer(client_p)`. -/
def modeLetter (cfg : Config) (viaServer : Bool) (p : Parse) (c : UInt8) : Parse :=
  if c = 43 then { p with what := .add }
  else if c = 45 then { p with what := .del }
  else if c = 111 then
    match p.what with
    | .add =>
      if viaServer && !p.client.umodes .oper then { p.putMode .oper with oper := p.oper + 1 } else p
    | .del =>
      if p.client.umodes .oper then { p with client := p.client.deop cfg, oper := p.oper - 1 } else p
  -- `S` can only be set on burst
  else if c = 83 ∨ c = 32 ∨ c = 10 ∨ c = 13 ∨ c = 9 then p
  else if c = 120 then
    if p.client.myConnect && (p.client.ipSpoof || p.client.inet6) then p.bad
    else p.putMode .crypthost
  -- `h` may only be unset
  else if c = 104 ∧ p.what = .add then p
  else
    match userModeBitmask c with
    | some flag =>
      if p.client.myConnect && !p.client.umodes .oper && cfg.operOnlyUmodes flag then p.bad
      else p.putMode flag
    | none => if p.client.myConnect then p.bad else p

/-- What `user_mode` tells the user. -/
inductive Reply
  | umodeis (modes : Bytes)
  | umodeUnknownFlag
  | needOperwall
  | needNickChanges
  | needSpamNotice
  | needAdmin
deriving DecidableEq, Repr

/-- A mode goes again if the user may not have it. -/
def strip (c : Client) (m : UMode) (without : Bool) (reply : Reply) : Client × List Reply :=
  (c.putIf (c.umodes m && without) m .del, if c.umodes m && without then [reply] else [])

/-- The four tests after the parser. -/
def checkPrivs (c : Client) : Client × List Reply :=
  let z := strip c .operwall (!c.operflags .operwall) .needOperwall
  let n := strip z.1 .nchange (!c.operflags .nicks) .needNickChanges
  let m := strip n.1 .spamnotice (c.myConnect && !c.operflags .spamnotice) .needSpamNotice
  let a := strip m.1 .admin (c.myConnect && (!c.isOperAdmin || c.operflags .hadmin)) .needAdmin
  (a.1, z.2 ++ n.2 ++ m.2 ++ a.2)

/-- The loops over the mode strings. -/
def parseModes (cfg : Config) (viaServer : Bool) (c : Client) (n : Count) (args : List Bytes) : Parse :=
  args.flatten.foldl (modeLetter cfg viaServer) ⟨.add, c, n.oper, false⟩

/-- The modes of a user, as `MODE` without arguments shows them. -/
def showModes (u : Modes) : Bytes := 43 :: (userModes.filter fun e => u e.1).map Prod.snd

/-- `user_mode` on the source itself, once it has been found.  `args` is `parv[2]` and
    what follows. -/
def userMode (cfg : Config) (viaServer : Bool) (c : Client) (n : Count) (args : List Bytes) :
    Client × Count × List Reply :=
  if args = [] then (c, n, [.umodeis (showModes c.umodes)])
  else
    let p := parseModes cfg viaServer c n args
    let checked := checkPrivs p.client
    (checked.1, ({ n with oper := p.oper } : Count).seen c.umodes checked.1.umodes,
      (if p.badflag then [.umodeUnknownFlag] else []) ++ checked.2)

-- ============================================================================
-- send_umode, oper_up and the mode loop of register_client
-- ============================================================================

/-- The loop of `send_umode`, from an entry of `user_modes` on.  `what` is the last sign
    put down. -/
def umodeText (mine : Bool) (old new mask : Modes) : Option What → List (UMode × UInt8) → Bytes
  | _, [] => []
  | what, (flag, letter) :: l =>
    if mine && !mask flag then umodeText mine old new mask what l
    else if old flag && !new flag then
      if what = some .del then letter :: umodeText mine old new mask what l
      else 45 :: letter :: umodeText mine old new mask (some .del) l
    else if !old flag && new flag then
      if what = some .add then letter :: umodeText mine old new mask what l
      else 43 :: letter :: umodeText mine old new mask (some .add) l
    else umodeText mine old new mask what l

/-- `send_umode`: the text for the change of a client's modes. -/
def sendUmode (c : Client) (old mask : Modes) : Bytes :=
  umodeText (c.myConnect && c.status == .client) old c.umodes mask none userModes

/-- The modes that come with `OPER`. -/
def operModes (cfg : Config) (conf : OperConf) : Modes :=
  if conf.umodes.any then conf.umodes.inter allUmodes
  else if cfg.operUmodes.any then cfg.operUmodes.inter allUmodes
  else defaultOperUmodes.inter allUmodes

/-- The first half of `oper_up`: the modes and flags that a user gets. -/
def Client.opered (cfg : Config) (conf : OperConf) (c : Client) : Client :=
  { c with umodes := (c.umodes.put .oper .add).union (operModes cfg conf)
           operflags := fun f => c.operflags f || conf.flags f }

/-- The second half of `oper_up`: the modes that depend on the flags. -/
def Client.operedFlags (c : Client) : Client :=
  ((c.putIf (c.isOperAdmin && !c.operflags .hadmin) .admin .add).putIf (!c.operflags .nicks) .nchange
    .del).putIf (!c.operflags .operwall) .operwall .del

/-- `oper_up`: the client, the counters, and the old modes for `send_umode_out`. -/
def operUp (cfg : Config) (conf : OperConf) (c : Client) (n : Count) : Client × Count × Modes :=
  let old := c.umodes.inter allUmodes
  let done := (c.opered cfg conf).operedFlags
  (done, ({ n with oper := n.oper + 1 } : Count).seen old done.umodes, old)

/-- One letter in the mode loop of `register_client`. -/
def registerLetter (s : Client × Count) (letter : UInt8) : Client × Count :=
  match userModeBitmask letter with
  | none => s
  | some flag =>
    if flag = .service ∧ s.1.service = false then s
    else
      (s.1.putIf (sendUmodes flag) flag .add,
       { s.2 with invisi := if flag = .invisible ∧ s.1.umodes .invisible = false then s.2.invisi + 1
                    else s.2.invisi,
                  oper := if flag = .oper ∧ s.1.umodes .oper = false then s.2.oper + 1 else s.2.oper })

/-- The mode loop of `register_client`, on the text of the modes: it begins after the
    first byte. -/
def registerModes (c : Client) (n : Count) (text : Bytes) : Client × Count :=
  (text.drop 1).foldl registerLetter (c, n)

/-- `introduce_client`: the text of the modes. -/
def introduceText (c : Client) : Bytes :=
  let text := sendUmode c (fun _ => false) sendUmodes
  if text = [] then [43] else text

end Bluebox.Umode
