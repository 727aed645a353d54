/-
  Bluebox.Spam.Basic

  The spam filter: the commands of `modules/m_spam.c`, the dispatch by `ms_encap` of
  `modules/m_encap.c` and `handle_encap` of `libratboxcore/parse.c`, and the lookup
  `find_sline_mask` of `libratboxcore/s_newconf.c`.

  Each command tests its own source.  The test of `UNSPAM` lets every user through,
  where that of `SPAM` asks for a user that is a service.
-/
import Bluebox.Atable
import Bluebox.Lib.First

namespace Bluebox.Spam

open Bluebox.Lib

-- ============================================================================
-- S-lines
-- ============================================================================

/-- The `ConfItem` of an S-line.  `flags` is what an update writes the type to. -/
structure Sline where
  host : Bytes
  passwd : Bytes
  port : Int
  flags : Int
deriving DecidableEq, Repr

/-- `sline_conf_list`. -/
abbrev Slines := List Sline

/-- `find_sline_mask`, as a test for an entry. -/
def Sline.isFor (aconf : Sline) (mask : Bytes) : Bool := irccmp aconf.host mask == 0

/-- `LAST_SPAM_TYPE`. -/
def lastSpamType : Int := 3

/-- `add_spam`. -/
def Slines.addSpam (l : Slines) (mask : Bytes) (type : Int) (reason : Bytes) : Slines :=
  if type < 0 ∨ type ≥ lastSpamType then l
  else if l.any (·.isFor mask) then
    updateFirst (·.isFor mask) (fun aconf => { aconf with flags := type, passwd := reason }) l
  else ⟨collapse mask, reason, type, 0⟩ :: l

/-- The loop of `me_unspam`. -/
def Slines.removeSpam (l : Slines) (mask : Bytes) : Slines := l.eraseP (·.isFor mask)

-- ============================================================================
-- check_for_spam
-- ============================================================================

/-- Up to two digits of a colour code. -/
def skipDigits : Bytes → Bytes
  | a :: b :: s => if isDigit a then (if isDigit b then s else b :: s) else a :: b :: s
  | [a] => if isDigit a then [] else [a]
  | [] => []

/-- What follows the start of a colour code. -/
def skipColour (s : Bytes) : Bytes :=
  match skipDigits s with
  | 44 :: t => skipDigits t
  | t => t

/-- The loop that strips control codes.  A colour code at the end of the text takes
    the loop past it: there is no result then. -/
def stripCodes : Nat → Bytes → Option Bytes
  | 0, _ => none
  | _, [] => some []
  | fuel + 1, c :: s =>
    match if c = 3 then skipColour s else c :: s with
    | [] => none
    | d :: t =>
      if d = 2 ∨ d = 7 ∨ d = 15 ∨ d = 22 ∨ d = 31 then stripCodes fuel t
      else (stripCodes fuel t).map (d :: ·)

/-- What is done about a message: it is blocked, operators are told, the sender is
    to be shunned. -/
structure Action where
  block : Bool
  notice : Bool
  shun : Bool
deriving DecidableEq, Repr

/-- The switch of `check_for_spam` over the type of an S-line. -/
def spamAction (port : Int) : Action :=
  if port = 0 then ⟨true, false, false⟩
  else if port = 1 then ⟨true, true, false⟩
  else if port = 2 then ⟨true, true, true⟩
  else ⟨false, false, false⟩

-- ============================================================================
-- Commands
-- ============================================================================

/-- `STAT_`. -/
inductive Stat
  | connecting
  | handshake
  | me
  | unknown
  | reject
  | server
  | client
deriving DecidableEq, Repr

/-- The source of a message, as far as the commands look at it. -/
structure Source where
  status : Stat
  myConnect : Bool
  oper : Bool
  service : Bool
  sentEob : Bool
deriving DecidableEq, Repr

/-- `HandlerType`. -/
inductive HandlerType
  | unregistered
  | client
  | rclient
  | server
  | oper
deriving DecidableEq, Repr

/-- The handler that the macros for the status set. -/
def Source.handler (source : Source) : HandlerType :=
  match source.status with
  | .server => .server
  | .client => if !source.myConnect then .rclient else if source.oper then .oper else .client
  | _ => .unregistered

/-- A user with the user mode of a service. -/
def Source.serviceClient (source : Source) : Bool := source.status == .client && source.service

/-- A server that has not sent its end of burst. -/
def Source.burstingServer (source : Source) : Bool := source.status == .server && !source.sentEob

/-- The commands that change the filter. -/
inductive Command
  | spam
  | unspam
  | bspam
deriving DecidableEq, Repr

/-- The name of a command. -/
def Command.cmd : Command → Bytes
  | .spam => [83, 80, 65, 77]
  | .unspam => [85, 78, 83, 80, 65, 77]
  | .bspam => [66, 83, 80, 65, 77]

/-- The fewest parameters of a command, `parv[0]` included. -/
def Command.minPara : Command → Nat
  | .spam => 4
  | .unspam => 2
  | .bspam => 5

/-- `me_spam`. -/
def Slines.meSpam (l : Slines) (source : Source) (parv : List Bytes) : Slines :=
  if !(source.status == .client) || !source.service then l
  else l.addSpam (parv.getD 1 []) (atoi (parv.getD 2 [])) (parv.getD 3 [])

/-- `me_unspam`. -/
def Slines.meUnspam (l : Slines) (source : Source) (parv : List Bytes) : Slines :=
  if !(source.status == .client) && !source.service then l else l.removeSpam (parv.getD 1 [])

/-- `me_bspam`. -/
def Slines.meBspam (l : Slines) (source : Source) (parv : List Bytes) : Slines :=
  if source.status == .client || source.sentEob then l
  else l.addSpam (parv.getD 1 []) (atoi (parv.getD 2 [])) (parv.getD 4 [])

/-- The handler of a command. -/
def Slines.handle (l : Slines) (command : Command) (source : Source) (parv : List Bytes) :
    Slines :=
  match command with
  | .spam => l.meSpam source parv
  | .unspam => l.meUnspam source parv
  | .bspam => l.meBspam source parv

-- ============================================================================
-- ENCAP
-- ============================================================================

/-- The loop of `ms_encap` over all parameters but the last: they fit its buffer. -/
def encapFits : Nat → List Bytes → Bool
  | _, [] => true
  | curLen, p :: rest =>
    let len := p.length + 1
    if curLen + len ≥ 512 then false else encapFits (curLen + len) rest

/-- `hash_parse`, for the commands of the filter. -/
def hashParse (cmd : Bytes) : Option Command :=
  [.spam, .unspam, .bspam].find? fun command : Command => lower cmd == lower command.cmd

/-- The call of a handler that `ENCAP` with some parameters leads to, `parv[0]`
    included: through `handle_command`, `ms_encap` and `handle_encap`. -/
def encapCall (me : Bytes) (source : Source) (parv : List Bytes) :
    Option (Command × List Bytes) :=
  if source.handler ≠ .rclient ∧ source.handler ≠ .server then none
  else if parv.length < 3 ∨ parv.getD 2 [] = [] then none
  else if !encapFits 0 (parv.tail.dropLast) then none
  else if !matchMask (parv.getD 1 []) me then none
  else
    (hashParse (parv.getD 2 [])).bind fun command =>
      let parv := parv.drop 2
      if parv.length < command.minPara ∨ parv.getD (command.minPara - 1) [] = [] then none
      else some (command, parv)

/-- An `ENCAP` message. -/
def Slines.encap (me : Bytes) (l : Slines) (source : Source) (parv : List Bytes) : Slines :=
  match encapCall me source parv with
  | none => l
  | some (command, parv) => l.handle command source parv

-- ============================================================================
-- Who may change the filter
-- ============================================================================

/-- Only services and bursting servers change the filter with a message: services
    with SPAM and UNSPAM, bursting servers with BSPAM. -/
def Guarded (me : Bytes) (l : Slines) (source : Source) (parv : List Bytes) : Prop :=
  (source.serviceClient = false → source.burstingServer = false → l.encap me source parv = l) ∧
  (source.serviceClient = false → hashParse (parv.getD 2 []) ≠ some .bspam →
    l.encap me source parv = l) ∧
  (source.burstingServer = false → hashParse (parv.getD 2 []) = some .bspam →
    l.encap me source parv = l)

/-- An UNSPAM that gets to its handler, for a mask that is there, from a user that is
    no service or from a server with that user mode. -/
def Stray (me : Bytes) (l : Slines) (source : Source) (parv : List Bytes) : Prop :=
  (encapCall me source parv).map Prod.fst = some .unspam ∧
    (source.status == .client) ≠ source.service ∧
    l.any (·.isFor (parv.getD 3 [])) = true

theorem handler_of_call {me : Bytes} {source : Source} {parv parv' : List Bytes}
    {command : Command} (h : encapCall me source parv = some (command, parv')) :
    (source.status = .client ∨ source.status = .server) ∧
      hashParse (parv.getD 2 []) = some command ∧ parv' = parv.drop 2 := by
  unfold encapCall at h
  split at h
  · cases h
  rename_i hhandler
  split at h
  · cases h
  split at h
  · cases h
  split at h
  · cases h
  obtain ⟨found, hfound, h⟩ := Option.bind_eq_some_iff.mp h
  dsimp only at h
  split at h
  · cases h
  obtain ⟨rfl, rfl⟩ := Prod.mk.inj (Option.some.inj h)
  refine ⟨?_, hfound, rfl⟩
  by_contra hstatus
  rw [not_or] at hstatus
  have hnone : source.handler = .unregistered := by
    unfold Source.handler
    cases hs : source.status with
    | server => exact absurd hs hstatus.2
    | client => exact absurd hs hstatus.1
    | connecting => rfl
    | handshake => rfl
    | me => rfl
    | unknown => rfl
    | reject => rfl
  rw [hnone] at hhandler
  exact hhandler (by decide)

theorem meSpam_of_not {l : Slines} {source : Source} {parv : List Bytes}
    (h : source.serviceClient = false) : l.meSpam source parv = l := by
  refine if_pos ?_
  unfold Source.serviceClient at h
  rw [← Bool.not_and, h]
  rfl

theorem meBspam_of_not {l : Slines} {source : Source} {parv : List Bytes}
    (hstatus : source.status = .client ∨ source.status = .server)
    (h : source.burstingServer = false) : l.meBspam source parv = l := by
  refine if_pos ?_
  obtain hstatus | hstatus := hstatus
  · rw [hstatus]
    rfl
  · unfold Source.burstingServer at h
    rw [hstatus] at h ⊢
    cases heob : source.sentEob with
    | true => rfl
    | false =>
      rw [heob] at h
      cases h

theorem removeSpam_eq_self_iff {l : Slines} {mask : Bytes} :
    l.removeSpam mask = l ↔ l.any (·.isFor mask) = false := by
  unfold Slines.removeSpam
  rw [List.eraseP_eq_self_iff, List.any_eq_false]

theorem meUnspam_of_not {l : Slines} {source : Source} {parv : List Bytes}
    (h : source.serviceClient = false)
    (hnone : (source.status == .client) ≠ source.service →
      l.any (·.isFor (parv.getD 1 [])) = false) : l.meUnspam source parv = l := by
  unfold Slines.meUnspam
  split
  · rfl
  · rename_i hopen
    refine removeSpam_eq_self_iff.mpr (hnone fun hsame => ?_)
    unfold Source.serviceClient at h
    rw [hsame, Bool.and_self] at h
    rw [hsame, h] at hopen
    exact hopen rfl

/-- Only services and bursting servers change the filter, as long as no stray UNSPAM
    gets to its handler. -/
theorem guarded_iff_not_stray (me : Bytes) (l : Slines) (source : Source) (parv : List Bytes) :
    Guarded me l source parv ↔ ¬ Stray me l source parv := by
  have hmask : (parv.drop 2).getD 1 [] = parv.getD 3 [] := by
    rw [List.getD_eq_getElem?_getD, List.getD_eq_getElem?_getD, List.getElem?_drop]
  constructor
  · rintro ⟨-, hguard, -⟩ ⟨hcall, hsource, hany⟩
    obtain ⟨⟨command, parv'⟩, hcall, rfl⟩ := Option.map_eq_some_iff.mp hcall
    obtain ⟨-, hparse, rfl⟩ := handler_of_call hcall
    have hservice : source.serviceClient = false := by
      unfold Source.serviceClient
      revert hsource
      cases source.status == .client <;> cases source.service <;> decide
    have hsame := hguard hservice (by rw [hparse]; decide)
    unfold Slines.encap at hsame
    rw [hcall] at hsame
    have hopen : (!(source.status == .client) && !source.service) = false := by
      revert hsource
      cases source.status == .client <;> cases source.service <;> decide
    dsimp only [Slines.handle, Slines.meUnspam] at hsame
    rw [hopen, if_neg Bool.false_ne_true, hmask, removeSpam_eq_self_iff, hany] at hsame
    cases hsame
  · intro hstray
    -- what a user that is no service can do
    have hclient : source.serviceClient = false → hashParse (parv.getD 2 []) ≠ some .bspam →
        l.encap me source parv = l := by
      intro hservice hcmd
      unfold Slines.encap
      cases hcall : encapCall me source parv with
      | none => rfl
      | some call =>
        obtain ⟨command, parv'⟩ := call
        obtain ⟨hstatus, hparse, rfl⟩ := handler_of_call hcall
        cases command with
        | spam => exact meSpam_of_not hservice
        | bspam => exact absurd hparse hcmd
        | unspam =>
          refine meUnspam_of_not hservice fun hsource => ?_
          rw [hmask, Bool.eq_false_iff]
          intro hany
          exact hstray ⟨by rw [hcall]; rfl, hsource, hany⟩
    -- what a server that has sent its end of burst can do
    have hserver : source.burstingServer = false → hashParse (parv.getD 2 []) = some .bspam →
        l.encap me source parv = l := by
      intro hburst hcmd
      unfold Slines.encap
      cases hcall : encapCall me source parv with
      | none => rfl
      | some call =>
        obtain ⟨command, parv'⟩ := call
        obtain ⟨hstatus, hparse, rfl⟩ := handler_of_call hcall
        rw [hcmd] at hparse
        obtain rfl := Option.some.inj hparse
        exact meBspam_of_not hstatus hburst
    refine ⟨fun hservice hburst => ?_, hclient, hserver⟩
    by_cases hcmd : hashParse (parv.getD 2 []) = some .bspam
    · exact hserver hburst hcmd
    · exact hclient hservice hcmd

/-- A user of another server without any mode. -/
def remoteUser : Source := ⟨.client, false, false, false, false⟩

/-- `ENCAP * UNSPAM foo` from a user that is no service, with an S-line for `foo`. -/
theorem not_guarded_unspam : ¬ ∀ (me : Bytes) (l : Slines) (source : Source) (parv : List Bytes),
    Guarded me l source parv := by
  intro h
  have hguard := h [97, 46, 98] [⟨[102, 111, 111], [110, 111], 0, 0⟩] remoteUser
    [[117], [42], [85, 78, 83, 80, 65, 77], [102, 111, 111]]
  have hsame := hguard.1 (by decide) (by decide)
  have hgone : Slines.encap [97, 46, 98] [⟨[102, 111, 111], [110, 111], 0, 0⟩] remoteUser
      [[117], [42], [85, 78, 83, 80, 65, 77], [102, 111, 111]] = [] := by decide
  rw [hgone] at hsame
  cases hsame

end Bluebox.Spam
