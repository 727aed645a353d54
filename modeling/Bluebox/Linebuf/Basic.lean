/-
  Bluebox.Linebuf.Basic

  The line queues of libratbox (`libratbox/src/linebuf.c`).

  A `buf_head_t` is a doubly linked list of pointers to `buf_line_t`; a line
  may be on several queues at once (`rb_linebuf_attach` shares it and counts
  the sharing in `refcount`).  The model keeps that indirection: a `Sys` holds
  the allocated lines by address and the queue heads by name, and a queue is a
  list of addresses.  A line released to the block heap keeps its record here;
  nothing reads it again.

  Bytes are `UInt8`.  The field `buf` of a line holds the bytes
  `buf[0] .. buf[len - 1]`; `len` is kept separately, as the source keeps it.
-/
import Mathlib.Logic.Function.Basic
import Mathlib.Data.List.Basic
import Mathlib.Data.List.DropRight
import Bluebox.Lib.CString

namespace Bluebox
namespace Linebuf

-- ============================================================================
-- Data
-- ============================================================================

/-- `BUF_DATA_SIZE`: 510 data bytes, plus space for a NUL. -/
def bufDataSize : Nat := 511

/-- CR or LF. -/
def isCrlf (b : UInt8) : Bool := b == 13 || b == 10

/-- `buf_line_t`. -/
structure BufLine where
  buf : Bytes
  terminated : Bool
  raw : Bool
  len : Int
  refcount : Int
deriving DecidableEq, Repr

/-- A line as `rb_bh_alloc` hands it out: zeroed. -/
def BufLine.alloc : BufLine := ⟨[], false, false, 0, 0⟩

/-- `buf_head_t`; `list` holds the addresses of the queued lines, head first. -/
structure BufHead where
  list : List Nat
  len : Int
  alloclen : Int
  writeofs : Int
  numlines : Int
deriving DecidableEq, Repr

/-- `rb_linebuf_newbuf`: a queue head set to zero. -/
def rbLinebufNewbuf : BufHead := ⟨[], 0, 0, 0, 0⟩

/-- All lines and queues of the process.  `ι` names the queues; addresses at
    or above `next` have not been allocated yet. -/
structure Sys (ι : Type _) where
  line : Nat → BufLine
  next : Nat
  head : ι → BufHead

variable {ι : Type _} [DecidableEq ι]

/-- Nothing allocated and every queue new. -/
def Sys.start : Sys ι := ⟨fun _ => BufLine.alloc, 0, fun _ => rbLinebufNewbuf⟩

/-- The lines of a queue, head first. -/
def Sys.queue (s : Sys ι) (q : ι) : List BufLine := (s.head q).list.map s.line

/-- Write a line back. -/
def Sys.setLine (s : Sys ι) (id : Nat) (l : BufLine) : Sys ι :=
  { s with line := Function.update s.line id l }

/-- Write a queue head back. -/
def Sys.setHead (s : Sys ι) (q : ι) (h : BufHead) : Sys ι :=
  { s with head := Function.update s.head q h }

omit [DecidableEq ι] in
@[simp] theorem Sys.setLine_line (s : Sys ι) (id : Nat) (l : BufLine) :
    (s.setLine id l).line = Function.update s.line id l := rfl

omit [DecidableEq ι] in
@[simp] theorem Sys.setLine_head (s : Sys ι) (id : Nat) (l : BufLine) :
    (s.setLine id l).head = s.head := rfl

omit [DecidableEq ι] in
@[simp] theorem Sys.setLine_next (s : Sys ι) (id : Nat) (l : BufLine) :
    (s.setLine id l).next = s.next := rfl

@[simp] theorem Sys.setHead_line (s : Sys ι) (q : ι) (h : BufHead) :
    (s.setHead q h).line = s.line := rfl

@[simp] theorem Sys.setHead_head (s : Sys ι) (q : ι) (h : BufHead) :
    (s.setHead q h).head = Function.update s.head q h := rfl

@[simp] theorem Sys.setHead_next (s : Sys ι) (q : ι) (h : BufHead) :
    (s.setHead q h).next = s.next := rfl

-- ============================================================================
-- Lines
-- ============================================================================

/-- `rb_linebuf_new_line`: allocate a line at the tail of the queue. -/
def rbLinebufNewLine (s : Sys ι) (q : ι) : Sys ι × Nat :=
  let h := s.head q
  ({ line := Function.update s.line s.next { BufLine.alloc with refcount := 1 }
     next := s.next + 1
     head := Function.update s.head q
       { h with list := h.list ++ [s.next], alloclen := h.alloclen + 1,
                numlines := h.numlines + 1 } },
   s.next)

/-- `rb_linebuf_done_line`, which is always called with the head of the queue. -/
def rbLinebufDoneLine (s : Sys ι) (q : ι) : Sys ι :=
  let h := s.head q
  match h.list with
  | [] => s
  | id :: rest =>
    let l := s.line id
    (s.setLine id { l with refcount := l.refcount - 1 }).setHead q
      { h with list := rest, alloclen := h.alloclen - 1, len := h.len - l.len,
               numlines := h.numlines - 1 }

/-- `rb_linebuf_done_line` on a queue that has a line. -/
theorem rbLinebufDoneLine_cons {s : Sys ι} {q : ι} {id : Nat} {rest : List Nat}
    (hlist : (s.head q).list = id :: rest) :
    rbLinebufDoneLine s q =
      (s.setLine id { s.line id with refcount := (s.line id).refcount - 1 }).setHead q
        { s.head q with list := rest, alloclen := (s.head q).alloclen - 1,
                        len := (s.head q).len - (s.line id).len,
                        numlines := (s.head q).numlines - 1 } := by
  simp only [rbLinebufDoneLine]
  rw [hlist]

theorem rbLinebufDoneLine_nil {s : Sys ι} {q : ι} (hlist : (s.head q).list = []) :
    rbLinebufDoneLine s q = s := by
  simp only [rbLinebufDoneLine]
  rw [hlist]

/-- `rb_linebuf_skip_crlf`: the bytes up to the first CR or LF, and the run of
    CR and LF bytes there. -/
def rbLinebufSkipCrlf (ch : Bytes) : Nat :=
  let body := ch.takeWhile (! isCrlf ·)
  body.length + ((ch.drop body.length).takeWhile isCrlf).length

/-- How many bytes the loop `while (cpylen && (*bufch == '\r' || *bufch == '\n'))`
    takes off the end of `full`.  In the overflow branch the loop could walk
    past the front of the buffer when all of it is CR and LF; what it would
    touch there belongs to no line. -/
def yankCrlf (full : Bytes) (cpylen : Nat) : Nat :=
  min cpylen (full.reverse.takeWhile isCrlf).length

/-- What a copy function did: the line after it, the bytes it consumed, and
    what it added to `bufhead->len`. -/
structure Copied where
  line : BufLine
  clen : Nat
  added : Int

/-- `rb_linebuf_copy_line`. -/
def rbLinebufCopyLine (bufline : BufLine) (data : Bytes) : Copied :=
  let l := { bufline with raw := false }
  if l.terminated then ⟨l, 0, 0⟩
  else
    let cpylen := rbLinebufSkipCrlf data
    if (cpylen : Int) > bufDataSize - l.len - 1 then
      -- overflow: keep what fits, drop the rest of the line
      let full := l.buf ++ data.take (bufDataSize - l.len - 1).toNat
      let n := yankCrlf full cpylen
      ⟨{ l with buf := full.take (full.length - n) ++ List.replicate n 0,
                terminated := true, len := bufDataSize - 1 },
        cpylen, bufDataSize - 1⟩
    else
      let full := l.buf ++ data.take cpylen
      if full.getLast?.any isCrlf then
        -- yank the CRLF off
        let n := yankCrlf full cpylen
        ⟨{ l with buf := full.take (full.length - n), terminated := true,
                  len := l.len + (cpylen - n) }, cpylen, cpylen - n⟩
      else
        -- no linefeed, bail for the next time
        ⟨{ l with buf := full, terminated := false, len := l.len + cpylen },
          cpylen, cpylen⟩

/-- `rb_linebuf_copy_raw`: as `rbLinebufCopyLine`, but the bytes are stored
    unaltered and an overflow leaves the rest for the next line. -/
def rbLinebufCopyRaw (bufline : BufLine) (data : Bytes) : Copied :=
  let l := { bufline with raw := true }
  if l.terminated then ⟨l, 0, 0⟩
  else
    let cpylen := rbLinebufSkipCrlf data
    if (cpylen : Int) > bufDataSize - l.len - 1 then
      let clen := (bufDataSize - l.len - 1).toNat
      ⟨{ l with buf := l.buf ++ data.take clen, terminated := true,
                len := bufDataSize - 1 }, clen, bufDataSize - 1⟩
    else
      let full := l.buf ++ data.take cpylen
      ⟨{ l with buf := full, terminated := full.getLast?.any isCrlf,
                len := l.len + cpylen }, cpylen, cpylen⟩

/-! ### The branches of the copy functions -/

section Branches

variable {l : BufLine} {data : Bytes}

theorem rbLinebufCopyLine_terminated (ht : l.terminated = true) :
    rbLinebufCopyLine l data = ⟨{ l with raw := false }, 0, 0⟩ := by
  simp only [rbLinebufCopyLine, ht, if_true]

theorem rbLinebufCopyLine_overflow (ht : l.terminated = false)
    (ho : (rbLinebufSkipCrlf data : Int) > bufDataSize - l.len - 1) :
    rbLinebufCopyLine l data =
      let full := l.buf ++ data.take (bufDataSize - l.len - 1).toNat
      let n := yankCrlf full (rbLinebufSkipCrlf data)
      ⟨{ l with raw := false, buf := full.take (full.length - n) ++ List.replicate n 0,
                terminated := true, len := bufDataSize - 1 },
        rbLinebufSkipCrlf data, bufDataSize - 1⟩ := by
  simp only [rbLinebufCopyLine, ht, Bool.false_eq_true, if_false, if_pos ho]

theorem rbLinebufCopyLine_complete (ht : l.terminated = false)
    (ho : ¬ (rbLinebufSkipCrlf data : Int) > bufDataSize - l.len - 1)
    (he : (l.buf ++ data.take (rbLinebufSkipCrlf data)).getLast?.any isCrlf = true) :
    rbLinebufCopyLine l data =
      let full := l.buf ++ data.take (rbLinebufSkipCrlf data)
      let n := yankCrlf full (rbLinebufSkipCrlf data)
      ⟨{ l with raw := false, buf := full.take (full.length - n), terminated := true,
                len := l.len + (rbLinebufSkipCrlf data - n) },
        rbLinebufSkipCrlf data, rbLinebufSkipCrlf data - n⟩ := by
  simp only [rbLinebufCopyLine, ht, Bool.false_eq_true, if_false, if_neg ho, he, if_true]

theorem rbLinebufCopyLine_open (ht : l.terminated = false)
    (ho : ¬ (rbLinebufSkipCrlf data : Int) > bufDataSize - l.len - 1)
    (he : (l.buf ++ data.take (rbLinebufSkipCrlf data)).getLast?.any isCrlf = false) :
    rbLinebufCopyLine l data =
      ⟨{ l with raw := false, buf := l.buf ++ data.take (rbLinebufSkipCrlf data),
                terminated := false, len := l.len + rbLinebufSkipCrlf data },
        rbLinebufSkipCrlf data, rbLinebufSkipCrlf data⟩ := by
  simp only [rbLinebufCopyLine, ht, Bool.false_eq_true, if_false, if_neg ho, he]

theorem rbLinebufCopyRaw_terminated (ht : l.terminated = true) :
    rbLinebufCopyRaw l data = ⟨{ l with raw := true }, 0, 0⟩ := by
  simp only [rbLinebufCopyRaw, ht, if_true]

theorem rbLinebufCopyRaw_overflow (ht : l.terminated = false)
    (ho : (rbLinebufSkipCrlf data : Int) > bufDataSize - l.len - 1) :
    rbLinebufCopyRaw l data =
      ⟨{ l with raw := true, buf := l.buf ++ data.take (bufDataSize - l.len - 1).toNat,
                terminated := true, len := bufDataSize - 1 },
        (bufDataSize - l.len - 1).toNat, bufDataSize - 1⟩ := by
  simp only [rbLinebufCopyRaw, ht, Bool.false_eq_true, if_false, if_pos ho]

theorem rbLinebufCopyRaw_fits (ht : l.terminated = false)
    (ho : ¬ (rbLinebufSkipCrlf data : Int) > bufDataSize - l.len - 1) :
    rbLinebufCopyRaw l data =
      let full := l.buf ++ data.take (rbLinebufSkipCrlf data)
      ⟨{ l with raw := true, buf := full, terminated := full.getLast?.any isCrlf,
                len := l.len + rbLinebufSkipCrlf data },
        rbLinebufSkipCrlf data, rbLinebufSkipCrlf data⟩ := by
  simp only [rbLinebufCopyRaw, ht, Bool.false_eq_true, if_false, if_neg ho]

end Branches

/-- The copy function `rb_linebuf_parse` picks. -/
def copyFn : Bool → BufLine → Bytes → Copied
  | false => rbLinebufCopyLine
  | true => rbLinebufCopyRaw

-- ============================================================================
-- Parsing into a queue
-- ============================================================================

/-- Copy into the line at `id` of queue `q`; returns the bytes consumed. -/
def copyInto (s : Sys ι) (q : ι) (id : Nat) (data : Bytes) (raw : Bool) : Sys ι × Nat :=
  let c := copyFn raw (s.line id) data
  let h := s.head q
  ((s.setLine id c.line).setHead q { h with len := h.len + c.added }, c.clen)

/-- The loop of `rb_linebuf_parse`: one new line per round while data is left.
    Each round consumes at least one byte, so `data.length` rounds are enough. -/
def parseLoop (q : ι) (raw : Bool) : Nat → Sys ι → Bytes → Nat → Sys ι × Nat
  | 0, s, _, linecnt => (s, linecnt)
  | fuel + 1, s, data, linecnt =>
    if data = [] then (s, linecnt)
    else
      let n := rbLinebufNewLine s q
      let c := copyInto n.1 q n.2 data raw
      parseLoop q raw fuel c.1 (data.drop c.2) (linecnt + 1)

/-- `rb_linebuf_parse`: first squeeze data into the tail line, then break the
    rest into new lines.  Returns the line count. -/
def rbLinebufParse (s : Sys ι) (q : ι) (data : Bytes) (raw : Bool) : Sys ι × Nat :=
  match (s.head q).list.getLast? with
  | some id =>
    let c := copyInto s q id data raw
    if c.2 = data.length then (c.1, 1)
    else parseLoop q raw data.length c.1 (data.drop c.2) 1
  | none => parseLoop q raw data.length s data 0

-- ============================================================================
-- Taking lines out
-- ============================================================================

/-- The bytes `rb_linebuf_get` copies out of a line: at most `buflen - 1` of a
    line longer than `buflen`, and without the CR and LF bytes around them when
    a raw line is read as a parsed one. -/
def lineText (l : BufLine) (buflen : Int) (raw : Bool) : Bytes :=
  let text := l.buf.take (if buflen < l.len then buflen - 1 else l.len).toNat
  if l.raw && !raw then
    ((text.dropWhile isCrlf).reverse.dropWhile isCrlf).reverse
  else text

/-- `rb_linebuf_get`.  The result is the new system and the copied bytes; their
    number is the return value of the source, so an empty result stands for
    its `return 0` whether a line was taken or not. -/
def rbLinebufGet (s : Sys ι) (q : ι) (buflen : Int) (isPartial raw : Bool) : Sys ι × Bytes :=
  match (s.head q).list with
  | [] => (s, [])
  | id :: _ =>
    let l := s.line id
    if isPartial || l.terminated then
      (rbLinebufDoneLine s q, lineText l buflen raw)
    else (s, [])

/-- One round of `rb_linebuf_attach`: the line at `id` joins `bufhead`. -/
def attachLine (bufhead : ι) (s : Sys ι) (id : Nat) : Sys ι :=
  let h := s.head bufhead
  let l := s.line id
  (s.setHead bufhead
    { h with list := h.list ++ [id], alloclen := h.alloclen + 1, len := h.len + l.len,
             numlines := h.numlines + 1 }).setLine id
    { l with refcount := l.refcount + 1 }

/-- `rb_linebuf_attach`: put the lines of `new` at the end of `bufhead`, by
    reference.  Attaching a non-empty queue to itself walks the list it is
    appending to and does not return. -/
def rbLinebufAttach (s : Sys ι) (bufhead new : ι) : Option (Sys ι) :=
  if bufhead = new ∧ (s.head new).list ≠ [] then none
  else some ((s.head new).list.foldl (attachLine bufhead) s)

-- ============================================================================
-- Putting lines in
-- ============================================================================

/-- The bytes the chop loop of the put functions steps over. -/
def isChopped (b : UInt8) : Bool := b == 13 || b == 10 || b == 0

/-- The end of the three put functions, on the expanded text: cut it to 510
    bytes or chop its trailing CR, LF and NUL bytes, and add CR LF.  When
    every byte is chopped the loop reads below the buffer; the source does not
    define what happens then. -/
def finishLine (text : Bytes) : Option (Bytes × Int) :=
  if text.length > 510 then some (text.take 510 ++ [13, 10], 512)
  else if text.length = 0 then some ([13, 10], 2)
  else
    let kept := text.rdropWhile isChopped
    if kept = [] then none
    else
      -- `len` walks down to the last kept byte and up again by three
      let len : Int := (kept.length : Int) - 1
      some (kept ++ [13, 10], len + 3)

/-- Append a terminated line with the given expanded text. -/
def putText (s : Sys ι) (q : ι) (text : Bytes) : Option (Sys ι) :=
  (finishLine text).map fun (buf, len) =>
    let n := rbLinebufNewLine s q
    let l := n.1.line n.2
    let h := n.1.head q
    (n.1.setLine n.2 { l with buf := buf, terminated := true, len := len }).setHead q
      { h with len := h.len + len }

/-- `rb_linebuf_put`, on the expansion of its format (none for a NULL format). -/
def rbLinebufPut (s : Sys ι) (q : ι) (expanded : Option Bytes) : Option (Sys ι) :=
  putText s q (expanded.getD [])

/-- `rb_linebuf_putbuf`. -/
def rbLinebufPutbuf (s : Sys ι) (q : ι) (buffer : Option Bytes) : Option (Sys ι) :=
  putText s q (buffer.getD [])

/-- `rb_linebuf_putmsg`, on the expansions of the prefix and of the message.  A
    prefix longer than the buffer leaves a negative size for the message, which
    `rb_vsnprintf` refuses. -/
def rbLinebufPutmsg (s : Sys ι) (q : ι) (pfx body : Option Bytes) : Option (Sys ι) :=
  let p := pfx.getD []
  putText s q (if p.length > bufDataSize then p else p ++ body.getD [])

-- ============================================================================
-- Flushing
-- ============================================================================

/-- `RB_UIO_MAXIOV`. -/
def rbUioMaxiov : Nat := 1024

/-- The addresses `rb_linebuf_flush` offers to `rb_writev`: the head line and
    the terminated lines after it, up to the size of the vector. -/
def flushVec (s : Sys ι) (list : List Nat) : List Nat :=
  match list with
  | [] => []
  | id :: rest => id :: (rest.takeWhile fun i => (s.line i).terminated).take (rbUioMaxiov - 1)

/-- The bytes offered: the head line from `writeofs` on, then the other lines. -/
def pendingBytes (s : Sys ι) (writeofs : Int) : List Nat → Bytes
  | [] => []
  | id :: rest => (s.line id).buf.drop writeofs.toNat ++ rest.flatMap fun i => (s.line i).buf

/-- The retiring loop of the writev path: `x` lines were offered and `xret`
    bytes accepted. -/
def retireLoop (q : ι) : Nat → Sys ι → Int → Sys ι
  | 0, s, _ => s
  | x + 1, s, xret =>
    let h := s.head q
    match h.list with
    | [] => s
    | id :: _ =>
      let l := s.line id
      if xret ≥ l.len - h.writeofs then
        let s' := rbLinebufDoneLine s q
        retireLoop q x (s'.setHead q { s'.head q with writeofs := 0 })
          (xret - (l.len - h.writeofs))
      else s.setHead q { h with writeofs := h.writeofs + xret }

/-- What a flush did: the system after it, the return value (-1 for the
    `EWOULDBLOCK` exits), and the bytes the descriptor accepted. -/
structure Flushed (ι : Type _) where
  sys : Sys ι
  retval : Int
  accepted : Bytes

/-- `rb_linebuf_flush`.  `write` is `rb_writev` (on the concatenation of the
    vector) or `rb_write`: it gets the offered bytes and returns how many it
    took, or a value that is not positive. -/
def rbLinebufFlush (s : Sys ι) (q : ι) (useWritev : Bool) (write : Bytes → Int) : Flushed ι :=
  let h := s.head q
  match h.list with
  | [] => ⟨s, -1, []⟩
  | id :: _ =>
    let l := s.line id
    if !l.terminated then ⟨s, -1, []⟩
    else if useWritev then
      let vec := flushVec s h.list
      let offered := pendingBytes s h.writeofs vec
      let retval := write offered
      if retval ≤ 0 then ⟨s, retval, []⟩
      else ⟨retireLoop q vec.length s retval, retval, offered.take retval.toNat⟩
    else
      let offered := l.buf.drop h.writeofs.toNat
      let retval := write offered
      if retval ≤ 0 then ⟨s, retval, []⟩
      else
        let ofs := h.writeofs + retval
        let s' := s.setHead q { h with writeofs := ofs }
        if ofs = l.len then
          let s'' := s.setHead q { h with writeofs := 0 }
          ⟨rbLinebufDoneLine s'' q, retval, offered.take retval.toNat⟩
        else ⟨s', retval, offered.take retval.toNat⟩

/-! ### The branches of the flush -/

section FlushBranches

variable {s : Sys ι} {q : ι} {id : Nat} {rest : List Nat} {write : Bytes → Int}

theorem retireLoop_nil (x : Nat) (xret : Int) (hlist : (s.head q).list = []) :
    retireLoop q x s xret = s := by
  cases x with
  | zero => rfl
  | succ x =>
    rw [retireLoop]
    simp only
    rw [hlist]

theorem retireLoop_cons (x : Nat) (xret : Int) (hlist : (s.head q).list = id :: rest) :
    retireLoop q (x + 1) s xret =
      if xret ≥ (s.line id).len - (s.head q).writeofs then
        let s' := rbLinebufDoneLine s q
        retireLoop q x (s'.setHead q { s'.head q with writeofs := 0 })
          (xret - ((s.line id).len - (s.head q).writeofs))
      else s.setHead q { s.head q with writeofs := (s.head q).writeofs + xret } := by
  rw [retireLoop]
  simp only
  rw [hlist]

theorem rbLinebufFlush_nil (useWritev : Bool) (hlist : (s.head q).list = []) :
    rbLinebufFlush s q useWritev write = ⟨s, -1, []⟩ := by
  simp only [rbLinebufFlush]
  rw [hlist]

theorem rbLinebufFlush_open (useWritev : Bool) (hlist : (s.head q).list = id :: rest)
    (ht : (s.line id).terminated = false) :
    rbLinebufFlush s q useWritev write = ⟨s, -1, []⟩ := by
  simp only [rbLinebufFlush]
  rw [hlist]
  simp only [ht, Bool.not_false, if_true]

theorem rbLinebufFlush_writev (hlist : (s.head q).list = id :: rest)
    (ht : (s.line id).terminated = true) :
    rbLinebufFlush s q true write =
      let vec := flushVec s (id :: rest)
      let offered := pendingBytes s (s.head q).writeofs vec
      if write offered ≤ 0 then ⟨s, write offered, []⟩
      else ⟨retireLoop q vec.length s (write offered), write offered,
        offered.take (write offered).toNat⟩ := by
  simp only [rbLinebufFlush]
  rw [hlist]
  simp only [ht, Bool.not_true, Bool.false_eq_true, if_false, if_true]

theorem rbLinebufFlush_write (hlist : (s.head q).list = id :: rest)
    (ht : (s.line id).terminated = true) :
    rbLinebufFlush s q false write =
      let offered := (s.line id).buf.drop (s.head q).writeofs.toNat
      let ofs := (s.head q).writeofs + write offered
      if write offered ≤ 0 then ⟨s, write offered, []⟩
      else if ofs = (s.line id).len then
        ⟨rbLinebufDoneLine (s.setHead q { s.head q with writeofs := 0 }) q, write offered,
          offered.take (write offered).toNat⟩
      else ⟨s.setHead q { s.head q with writeofs := ofs }, write offered,
        offered.take (write offered).toNat⟩ := by
  simp only [rbLinebufFlush]
  rw [hlist]
  simp only [ht, Bool.not_true, Bool.false_eq_true, if_false]

end FlushBranches

end Linebuf
end Bluebox
