/-
  Bluebox.Bandb.Masks

  What a mask has to look like before the commands that place bans accept it:
  `m_kline.c`, `m_dline.c`, `m_xline.c`, `m_resv.c` and the checks of
  `libratboxcore/s_newconf.c` they use.
-/
import Bluebox.Bandb.Basic

namespace Bluebox.Bandb

open Bluebox.Lib

/-- `IsKWildChar`. -/
def isKWildChar (b : UInt8) : Bool :=
  b == 33 || b == 42 || b == 46 || b == 47 || b == 63 || b == 64

/-- `IsMWildChar`. -/
def isMWildChar (b : UInt8) : Bool := b == 35 || b == 42 || b == 63 || b == 64

/-- `valid_user_host`; `bandb_check_kline` makes the same check. -/
def validUserHost (luser lhost : Bytes) : Bool :=
  luser.all (fun b => isUserChar b || isKWildChar b) &&
    lhost.all (fun b => isHostChar b || isKWildChar b)

/-- `valid_wild_card`: the characters that are not wildcards are counted until there
    are enough, and one is looked for in any case. -/
def validWildCard (minNonwildcard : Nat) (luser lhost : Bytes) : Bool :=
  decide (max 1 minNonwildcard ≤ (luser ++ lhost).countP (! isKWildChar ·))

/-- The characters that `valid_wild_card_simple` counts; an escaped one counts
    once. -/
def simpleNonwild : Bytes → Nat
  | [] => 0
  | [c] => if isMWildChar c then 0 else 1
  | c :: d :: data =>
    if c = 92 then simpleNonwild data + 1
    else if isMWildChar c then simpleNonwild (d :: data)
    else simpleNonwild (d :: data) + 1

/-- `valid_wild_card_simple`. -/
def validWildCardSimple (minNonwildcardSimple : Nat) (data : Bytes) : Bool :=
  decide (max 1 minNonwildcardSimple ≤ simpleNonwild data)

/-- `clean_resv_nick`. -/
def cleanResvNick (nick : Bytes) : Bool :=
  !(nick.head? == some 45 || nick.head?.any isDigit) &&
    nick.all (fun b => b == 63 || b == 64 || b == 35 || b == 42 || isNickChar b) &&
    (nick.any isNickChar || !nick.contains 42)

/-- The settings that the checks read. -/
structure Settings where
  minNonwildcard : Nat
  minNonwildcardSimple : Nat
  pton : Bytes → Option IpAddr

/-- The masks and the reason pass the checks of the command for the type.  For a
    D-line this is `valid_dline` for an administrator, or for another operator. -/
def accepted (cfg : Settings) (admin : Bool) (type : BanType) (mask1 mask2 reason : Bytes) : Bool :=
  match type with
  | .kline => validUserHost mask1 mask2 && validWildCard cfg.minNonwildcard mask1 mask2
  | .dline =>
    (parseNetmask cfg.pton mask1).any fun mask =>
      decide ((if admin then 8 else 16) ≤ mask.bits)
  | .xline => !reason.isEmpty && validWildCardSimple cfg.minNonwildcardSimple mask1
  | .resv =>
    if Chan.isChannelName mask1 then
      decide (mask1.length ≤ Chan.channelLen) && Chan.checkChannelName mask1
    else
      cleanResvNick mask1 && decide (mask1.length ≤ nickLen * 2) &&
        validWildCardSimple cfg.minNonwildcardSimple mask1

end Bluebox.Bandb
