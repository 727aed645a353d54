/-
  Bluebox.Sizes

  The sizes of `include/ircd_defs.h` and `include/parse.h` that several parts of the
  server share.
-/

namespace Bluebox

/-- `NICKLEN`. -/
def nickLen : Nat := 30

/-- `USERLEN`. -/
def userLen : Nat := 10

/-- `HOSTLEN`. -/
def hostLen : Nat := 63

/-- `IDLEN`. -/
def idLen : Nat := 10

/-- `BUFSIZE`. -/
def bufSize : Nat := 512

/-- `USERHOST_REPLYLEN`. -/
def userhostReplyLen : Nat := nickLen + hostLen + userLen + 5

/-- `MAXPARA`. -/
def maxPara : Nat := 15

end Bluebox
