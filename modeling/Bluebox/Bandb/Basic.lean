/-
  Bluebox.Bandb.Basic

  The ban database: the lines that `libratboxcore/bandbi.c` sends to the helper
  process `bandb/bandb.c` and the lines that the helper sends back.

  Both sides read a line with `rb_string_to_array` of `libratbox/src/tools.c`, and
  the lines travel through the line buffers of `libratbox/src/linebuf.c`.  The
  database keeps the rows of a table in the order they came in.
-/
import Bluebox.Hostmask
import Bluebox.Match
import Bluebox.Linebuf.Split
import Bluebox.Channel.Join
import Bluebox.Sizes

namespace Bluebox.Bandb

open Bluebox.Lib Bluebox.Linebuf

-- ============================================================================
-- rb_string_to_array
-- ============================================================================

/-- The loop of `rb_string_to_array`, at the start of a parameter.  The loop can take
    `more` parameters after this one; what is left then is the last parameter, and it
    keeps the blanks in front of it. -/
def paramLoop (more : Nat) (xbuf : Bytes) : List Bytes :=
  if xbuf.head? = some 58 then [xbuf.tail]
  else
    match strchr 32 xbuf with
    | none => [xbuf]
    | some (word, p) =>
      if p.dropWhile (· == 32) = [] then [word]
      else
        match more with
        | 0 => [word, if p.head? = some 58 then p.tail else p]
        | more + 1 => word :: paramLoop more (p.dropWhile (· == 32))

/-- `rb_string_to_array`. -/
def rbStringToArray (string : Bytes) (maxpara : Nat) : List Bytes :=
  let xbuf := string.dropWhile (· == 32)
  if xbuf = [] then [] else paramLoop (maxpara - 2) xbuf

-- ============================================================================
-- The helper
-- ============================================================================

/-- `bandb_type`. -/
inductive BanType
  | kline
  | dline
  | xline
  | resv
deriving DecidableEq, Repr

/-- `bandb_letter`, `bandb_add_letter`. -/
def BanType.letter : BanType → UInt8
  | .kline => 75
  | .dline => 68
  | .xline => 88
  | .resv => 82

/-- `bandb_del_letter`. -/
def BanType.delLetter : BanType → UInt8
  | .kline => 107
  | .dline => 100
  | .xline => 120
  | .resv => 114

/-- The types in the order of `bandb_table`. -/
def banTypes : List BanType := [.kline, .dline, .xline, .resv]

/-- A row of a table.  The time and the flag are inserted as they stand in the line. -/
structure Row where
  mask1 : Bytes
  mask2 : Bytes
  oper : Bytes
  time : Bytes
  perm : Bytes
  reason : Bytes
deriving DecidableEq, Repr

/-- The tables. -/
abbrev Db := BanType → List Row

/-- `INSERT INTO`. -/
def Db.insert (db : Db) (type : BanType) (row : Row) : Db :=
  Function.update db type (db type ++ [row])

/-- `DELETE FROM ... WHERE mask1 = ... AND mask2 = ...`. -/
def Db.delete (db : Db) (type : BanType) (mask1 mask2 : Bytes) : Db :=
  Function.update db type
    ((db type).filter fun row => ! (row.mask1 == mask1 && row.mask2 == mask2))

/-- `MAXPARA` of the helper. -/
def helperMaxpara : Nat := 10

/-- `parse_ban`: the row that it inserts. -/
def parseBan (type : BanType) (parv : List Bytes) : Option Row :=
  if type = .kline then
    match parv with
    | [_, mask1, mask2, oper, time, perm, reason] => some ⟨mask1, mask2, oper, time, perm, reason⟩
    | _ => none
  else
    match parv with
    | [_, mask1, oper, time, perm, reason] => some ⟨mask1, [], oper, time, perm, reason⟩
    | _ => none

/-- `parse_unban`: the masks that it deletes. -/
def parseUnban (type : BanType) (parv : List Bytes) : Option (Bytes × Bytes) :=
  if type = .kline then
    match parv with
    | [_, mask1, mask2] => some (mask1, mask2)
    | _ => none
  else
    match parv with
    | [_, mask1] => some (mask1, [])
    | _ => none

/-- What follows the masks in a line of `list_bans`. -/
def rowTail (row : Row) : Bytes := row.oper ++ 32 :: 58 :: row.reason

/-- A line of `list_bans`, in its buffer of 512 bytes. -/
def listLine (type : BanType) (row : Row) : Bytes :=
  let text := type.letter :: 32 :: (row.mask1 ++ 32 ::
    (if type = .kline then row.mask2 ++ 32 :: rowTail row else rowTail row))
  text.take 511

/-- `list_bans`. -/
def listBans (db : Db) : List Bytes :=
  [67] :: banTypes.flatMap (fun type => (db type).map (listLine type)) ++ [[70]]

/-- `parse_request`, for one line: the tables after it and the lines that it
    sends. -/
def parseRequest (db : Db) (line : Bytes) : Db × List Bytes :=
  let parv := rbStringToArray line helperMaxpara
  let letter := (parv.headD []).headD 0
  match banTypes.find? fun type => type.letter == letter with
  | some type =>
    match parseBan type parv with
    | some row => (db.insert type row, [])
    | none => (db, [])
  | none =>
    match banTypes.find? fun type => type.delLetter == letter with
    | some type =>
      match parseUnban type parv with
      | some masks => (db.delete type masks.1 masks.2, [])
      | none => (db, [])
    | none => if letter = 76 then (db, listBans db) else (db, [])

/-- The tables after some lines. -/
def parseRequests (db : Db) (lines : List Bytes) : Db :=
  lines.foldl (fun db line => (parseRequest db line).1) db

-- ============================================================================
-- The server
-- ============================================================================

/-- The `status` of a ban's `ConfItem`. -/
inductive Status
  | kill
  | dline
  | xline
  | resvChannel
  | resvNick
deriving DecidableEq, Repr

/-- The `ConfItem` that `bandb_handle_ban` makes. -/
structure Conf where
  status : Status
  user : Option Bytes
  host : Bytes
  oper : Bytes
  passwd : Bytes
  spasswd : Option Bytes
deriving DecidableEq, Repr

/-- `rb_snprintf_append`. -/
def snprintfAppend (buf : Bytes) (size : Nat) (text : Bytes) : Bytes :=
  buf ++ text.take (size - 1 - buf.length)

/-- The line of `bandb_add`.  `oper` is what `get_oper_name` gives. -/
def addLine (type : BanType) (mask1 mask2 oper : Bytes) (time perm : Int)
    (reason operReason : Bytes) : Bytes :=
  let buf := snprintfAppend [] bufSize (type.letter :: 32 :: (mask1 ++ [32]))
  let buf := if mask2 = [] then buf else snprintfAppend buf bufSize (mask2 ++ [32])
  let buf := snprintfAppend buf bufSize
    (oper ++ 32 :: (fmtInt time ++ 32 :: (fmtInt perm ++ 32 :: 58 :: reason)))
  if operReason = [] then buf else snprintfAppend buf bufSize (124 :: operReason)

/-- The line of `bandb_del`. -/
def delLine (type : BanType) (mask1 mask2 : Bytes) : Bytes :=
  let buf := snprintfAppend [] bufSize (type.delLetter :: 32 :: mask1)
  if mask2 = [] then buf else snprintfAppend buf bufSize (32 :: mask2)

/-- The `status` for a letter and a host. -/
def statusOf (type : BanType) (host : Bytes) : Status :=
  match type with
  | .kline => .kill
  | .dline => .dline
  | .xline => .xline
  | .resv => if Chan.isChannelName host then .resvChannel else .resvNick

/-- `operhash_add`, with the names in its table: a name that is there in any spelling
    is used in that spelling. -/
def operhashAdd (names : List Bytes) (name : Bytes) : Bytes :=
  (names.find? fun n => irccmp n name == 0).getD name

/-- The end of `bandb_handle_ban`: the reason is cut at its first bar. -/
def makeConf (type : BanType) (user : Option Bytes) (host oper text : Bytes) : Conf :=
  match strchr 124 text with
  | some (reason, operReason) => ⟨statusOf type host, user, host, oper, reason, some operReason⟩
  | none => ⟨statusOf type host, user, host, oper, text, none⟩

/-- `bandb_handle_ban`.  It does not look at `parc`, and a parameter that is missing
    is a null pointer: there is no result then. -/
def bandbHandleBan (names : List Bytes) (type : BanType) (parv : List Bytes) : Option Conf :=
  if type = .kline then
    match parv with
    | _ :: user :: host :: oper :: text :: _ =>
      some (makeConf type (some user) host (operhashAdd names oper) text)
    | _ => none
  else
    match parv with
    | _ :: host :: oper :: text :: _ =>
      some (makeConf type none host (operhashAdd names oper) text)
    | _ => none

/-- The `ConfItem` that `bandb_parse` makes of a line with a ban. -/
def bandbParseBan (names : List Bytes) (line : Bytes) : Option Conf :=
  let parv := rbStringToArray line maxPara
  (banTypes.find? fun type => type.letter == (parv.headD []).headD 0).bind fun type =>
    bandbHandleBan names type parv

-- ============================================================================
-- The pipe
-- ============================================================================

/-- `rb_helper_write`: the bytes that `rb_linebuf_putmsg` queues. -/
def rbHelperWrite (text : Bytes) : Option Bytes := (finishLine text).map Prod.fst

/-- The lines that `rb_helper_read` gives for bytes that came in some chunks. -/
def rbHelperReads (chunks : List Bytes) : List Bytes := surfaced ((received chunks).queue ())

/-- The bytes of a written line come in these chunks. -/
def Carries (chunks : List Bytes) (text : Bytes) : Prop :=
  (∀ c ∈ chunks, c ≠ []) ∧ rbHelperWrite text = some chunks.flatten

end Bluebox.Bandb
