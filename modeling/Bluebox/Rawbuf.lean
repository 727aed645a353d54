/-
  Bluebox.Rawbuf

  Raw output buffers (`libratbox/src/rawbuf.c`): data is appended in buffers of
  `RAWBUF_SIZE` bytes, and a flush hands the front of the queue to a descriptor
  that may take only part of it.

  What was accepted, followed by what is pending, is what was appended, as long
  as no vector write ends inside a head buffer that was part written before.
-/
import Bluebox.Lib.CString
import Bluebox.Lib.Reach

namespace Bluebox.Raw

open Bluebox.Lib

/-- `RAWBUF_SIZE`. -/
def rawbufSize : Nat := 1024

-- ============================================================================
-- The buffers
-- ============================================================================

/-- `struct _rawbuf`; `len` is the length of the data. -/
structure Rawbuf where
  data : Bytes
  flushing : Bool
deriving DecidableEq, Repr

/-- `buf->len`. -/
def Rawbuf.len (buf : Rawbuf) : Int := buf.data.length

/-- `struct _rawbuf_head`. -/
structure RawbufHead where
  list : List Rawbuf
  len : Int
  written : Int
deriving DecidableEq, Repr

/-- `rb_new_rawbuffer`. -/
def rbNewRawbuffer : RawbufHead := ⟨[], 0, 0⟩

/-- `rb_rawbuf_length`. -/
def rbRawbufLength (rb : RawbufHead) : Int := rb.len

-- ============================================================================
-- Appending
-- ============================================================================

/-- The loop of `rb_rawbuf_append` that puts data into new buffers.  Each round
    takes a byte at least, so the length of the data bounds the rounds. -/
def newBufs : Nat → Bytes → List Rawbuf
  | 0, _ => []
  | fuel + 1, data =>
    if data = [] then []
    else ⟨data.take rawbufSize, false⟩ :: newBufs fuel (data.drop rawbufSize)

/-- Append data in new buffers. -/
def appendNew (rb : RawbufHead) (data : Bytes) : RawbufHead :=
  { rb with list := rb.list ++ newBufs data.length data, len := rb.len + data.length }

/-- `rb_rawbuf_append`: the last buffer is filled up first, unless it is being
    flushed. -/
def rbRawbufAppend (rb : RawbufHead) (data : Bytes) : RawbufHead :=
  match rb.list.getLast? with
  | none => appendNew rb data
  | some buf =>
    if buf.data.length < rawbufSize ∧ buf.flushing = false then
      let clen := min data.length (rawbufSize - buf.data.length)
      let buf := { buf with data := buf.data ++ data.take clen }
      appendNew { rb with list := rb.list.dropLast ++ [buf], len := rb.len + clen } (data.drop clen)
    else appendNew rb data

-- ============================================================================
-- Flushing
-- ============================================================================

/-- The bytes of a buffer that are still to be written, `written` of a buffer
    that is being flushed being done. -/
def Rawbuf.rest (buf : Rawbuf) (written : Int) : Bytes :=
  if buf.flushing then buf.data.drop written.toNat else buf.data

/-- What a flush leaves: the queue, the return value and the bytes accepted. -/
structure FlushResult where
  head : RawbufHead
  retval : Int
  accepted : Bytes

/-- The second loop of `rb_rawbuf_flush_writev`, over the first `x` buffers: what
    was written in full is done. -/
def retireLoop : Nat → Int → RawbufHead → RawbufHead
  | 0, _, rb => rb
  | x + 1, xret, rb =>
    match rb.list with
    | [] => rb
    | buf :: list =>
      if buf.flushing = true ∧ xret ≥ buf.len - rb.written then
        retireLoop x (xret - (buf.len - rb.written))
          { rb with list := list, len := rb.len - (buf.len - rb.written) }
      else if xret ≥ buf.len then
        retireLoop x (xret - buf.len) { rb with list := list, len := rb.len - buf.len }
      else
        { list := { buf with flushing := true } :: list, len := rb.len - xret, written := xret }

/-- `rb_rawbuf_flush_writev`, with a vector of at most `maxiov` entries; `write`
    is what `rb_writev` returns. -/
def rbRawbufFlushWritev (maxiov : Nat) (rb : RawbufHead) (write : Bytes → Int) : FlushResult :=
  let vec := rb.list.take maxiov
  if vec = [] then ⟨rb, -1, []⟩
  else
    let offered := vec.flatMap fun buf => buf.rest rb.written
    let retval := write offered
    if retval ≤ 0 then ⟨rb, retval, []⟩
    else ⟨retireLoop vec.length retval rb, retval, offered.take retval.toNat⟩

/-- `rb_rawbuf_flush`: a descriptor with SSL gets one buffer at a time. -/
def rbRawbufFlush (maxiov : Nat) (ssl : Bool) (rb : RawbufHead) (write : Bytes → Int) :
    FlushResult :=
  match rb.list with
  | [] => ⟨rb, -1, []⟩
  | buf :: list =>
    if !ssl then rbRawbufFlushWritev maxiov rb write
    else
      let written := if buf.flushing then rb.written else 0
      let buf := { buf with flushing := true }
      let offered := buf.rest written
      let retval := write offered
      if retval ≤ 0 then ⟨⟨buf :: list, rb.len, written⟩, retval, []⟩
      else if written + retval = buf.len then
        ⟨⟨list, rb.len - retval, 0⟩, retval, offered.take retval.toNat⟩
      else ⟨⟨buf :: list, rb.len - retval, written + retval⟩, retval, offered.take retval.toNat⟩

-- ============================================================================
-- Runs
-- ============================================================================

/-- A queue with all bytes appended to it and accepted from it. -/
structure Log where
  rb : RawbufHead
  appended : Bytes
  accepted : Bytes
deriving DecidableEq

/-- A new queue. -/
def Log.start : Log := ⟨rbNewRawbuffer, [], []⟩

/-- A call: the descriptor of a flush takes up to so many bytes, and fails when
    that is not positive. -/
inductive Op
  | append (data : Bytes)
  | flush (taken : Int)
deriving DecidableEq

/-- One call, on a descriptor with or without SSL. -/
def Log.step (maxiov : Nat) (ssl : Bool) (l : Log) : Op → Option Log
  | .append data =>
    some { l with rb := rbRawbufAppend l.rb data, appended := l.appended ++ data }
  | .flush taken =>
    let r := rbRawbufFlush maxiov ssl l.rb fun offered => min taken offered.length
    some { l with rb := r.head, accepted := l.accepted ++ r.accepted }

/-- The bytes still to be written. -/
def RawbufHead.pending (rb : RawbufHead) : Bytes := rb.list.flatMap fun buf => buf.rest rb.written

/-- Nothing is lost and nothing repeated, and the length is known. -/
def Log.Intact (l : Log) : Prop :=
  l.accepted ++ l.rb.pending = l.appended ∧ rbRawbufLength l.rb = l.rb.pending.length

instance (l : Log) : Decidable l.Intact := inferInstanceAs (Decidable (_ ∧ _))

/-- A vector write does not end inside a head buffer of which a part was written
    before. -/
def Op.endsHead (ssl : Bool) (l : Log) : Op → Bool
  | .append _ => true
  | .flush taken =>
    match l.rb.list with
    | [] => true
    | buf :: _ =>
      ssl || !buf.flushing || l.rb.written == 0 || decide (taken ≤ 0)
        || decide (buf.len - l.rb.written ≤ taken)

-- ============================================================================
-- The invariant
-- ============================================================================

/-- No buffer is empty or too long, and only the head is being flushed, with a
    part of it left. -/
structure HeadOk (rb : RawbufHead) : Prop where
  nonempty : ∀ buf ∈ rb.list, buf.data ≠ []
  length_le : ∀ buf ∈ rb.list, buf.data.length ≤ rawbufSize
  tail : ∀ buf ∈ rb.list.tail, buf.flushing = false
  written_nonneg : ∀ buf ∈ rb.list.head?, buf.flushing = true → 0 ≤ rb.written
  written_lt : ∀ buf ∈ rb.list.head?, buf.flushing = true → rb.written < buf.len

theorem Rawbuf.rest_of_not_flushing {buf : Rawbuf} (h : buf.flushing = false) (written : Int) :
    buf.rest written = buf.data := by
  unfold Rawbuf.rest
  rw [h]
  exact if_neg Bool.false_ne_true

/-- Behind the head every byte is pending. -/
theorem flatMap_rest_of_not_flushing {list : List Rawbuf} (written : Int)
    (h : ∀ buf ∈ list, buf.flushing = false) :
    (list.flatMap fun buf => buf.rest written) = list.flatMap (·.data) := by
  refine List.flatMap_congr fun buf hbuf => ?_
  exact Rawbuf.rest_of_not_flushing (h buf hbuf) written

theorem HeadOk.pending_cons {rb : RawbufHead} (h : HeadOk rb) {buf : Rawbuf} {list : List Rawbuf}
    (hlist : rb.list = buf :: list) :
    rb.pending = buf.rest rb.written ++ list.flatMap (·.data) := by
  have htail : ∀ b ∈ list, b.flushing = false := by
    intro b hb
    exact h.tail b (by rwa [hlist])
  rw [RawbufHead.pending, hlist, List.flatMap_cons, flatMap_rest_of_not_flushing _ htail]

theorem HeadOk.rest_length {rb : RawbufHead} (h : HeadOk rb) {buf : Rawbuf} {list : List Rawbuf}
    (hlist : rb.list = buf :: list) :
    ((buf.rest rb.written).length : Int)
      = if buf.flushing = true then buf.len - rb.written else buf.len := by
  have hmem : buf ∈ rb.list.head? := by
    rw [hlist]
    rfl
  unfold Rawbuf.rest
  split
  · rename_i hflush
    have hnonneg := h.written_nonneg buf hmem hflush
    have hlt := h.written_lt buf hmem hflush
    unfold Rawbuf.len at hlt ⊢
    rw [List.length_drop]
    omega
  · rfl

/-- Without its head the queue is sound, whatever the counters are. -/
theorem HeadOk.of_tail {rb : RawbufHead} (h : HeadOk rb) {buf : Rawbuf} {list : List Rawbuf}
    (hlist : rb.list = buf :: list) (len written : Int) : HeadOk ⟨list, len, written⟩ := by
  have hmem : ∀ b ∈ list, b ∈ rb.list := by
    intro b hb
    rw [hlist]
    exact List.mem_cons_of_mem _ hb
  have hidle : ∀ b ∈ list, b.flushing = false := by
    intro b hb
    exact h.tail b (by rwa [hlist])
  have hhead : ∀ b ∈ list.head?, b.flushing = true → False := by
    intro b hb hflush
    rw [hidle b (List.mem_of_mem_head? hb)] at hflush
    cases hflush
  exact {
    nonempty := fun b hb => h.nonempty b (hmem b hb)
    length_le := fun b hb => h.length_le b (hmem b hb)
    tail := fun b hb => hidle b (List.mem_of_mem_tail hb)
    written_nonneg := fun b hb hflush => (hhead b hb hflush).elim
    written_lt := fun b hb hflush => (hhead b hb hflush).elim }

/-- The head may be put back with a part of it written. -/
theorem HeadOk.part_written {rb : RawbufHead} (h : HeadOk rb) {buf : Rawbuf} {list : List Rawbuf}
    (hlist : rb.list = buf :: list) {written : Int} (hnonneg : 0 ≤ written)
    (hlt : written < buf.len) (len : Int) :
    HeadOk ⟨{ buf with flushing := true } :: list, len, written⟩ := by
  have hbuf : buf ∈ rb.list := by
    rw [hlist]
    exact List.mem_cons_self
  have htail := h.of_tail hlist len written
  refine ⟨fun b hb => ?_, fun b hb => ?_, fun b hb => ?_, fun b hb _ => hnonneg, fun b hb _ => ?_⟩
  · rcases List.mem_cons.mp hb with rfl | hb
    · exact h.nonempty buf hbuf
    · exact htail.nonempty b hb
  · rcases List.mem_cons.mp hb with rfl | hb
    · exact h.length_le buf hbuf
    · exact htail.length_le b hb
  · exact h.tail b (by rwa [hlist])
  · obtain rfl := Option.some.inj hb
    exact hlt

/-- A part written head has the rest of its bytes pending. -/
theorem rest_part_written (buf : Rawbuf) (written : Int) :
    ({ buf with flushing := true } : Rawbuf).rest written = buf.data.drop written.toNat := rfl

-- ============================================================================
-- Appending
-- ============================================================================

theorem newBufs_data (fuel : Nat) : ∀ data : Bytes, data.length ≤ fuel →
    (newBufs fuel data).flatMap (·.data) = data := by
  induction fuel with
  | zero =>
    intro data h
    rw [List.eq_nil_of_length_eq_zero (Nat.le_zero.mp h)]
    rfl
  | succ fuel ih =>
    intro data h
    rw [newBufs]
    split
    · rename_i hnil
      rw [hnil]
      rfl
    · rename_i hne
      have hpos : 0 < data.length := List.length_pos_of_ne_nil hne
      have hlen : (data.drop rawbufSize).length ≤ fuel := by
        rw [List.length_drop]
        unfold rawbufSize
        omega
      rw [List.flatMap_cons, ih _ hlen, List.take_append_drop]

theorem newBufs_mem (fuel : Nat) : ∀ data : Bytes, ∀ buf ∈ newBufs fuel data,
    buf.data ≠ [] ∧ buf.data.length ≤ rawbufSize ∧ buf.flushing = false := by
  induction fuel with
  | zero =>
    intro data buf hbuf
    cases hbuf
  | succ fuel ih =>
    intro data buf hbuf
    rw [newBufs] at hbuf
    split at hbuf
    · cases hbuf
    · rename_i hne
      rcases List.mem_cons.mp hbuf with rfl | hbuf
      · refine ⟨fun hnil => ?_, List.length_take_le _ _, rfl⟩
        rcases List.take_eq_nil_iff.mp hnil with hzero | hnil
        · exact absurd hzero (by decide)
        · exact hne hnil
      · exact ih _ buf hbuf

theorem flatMap_data_append (list : List Rawbuf) (data : Bytes) (written : Int) :
    ((list ++ newBufs data.length data).flatMap fun buf => buf.rest written)
      = (list.flatMap fun buf => buf.rest written) ++ data := by
  rw [List.flatMap_append, flatMap_rest_of_not_flushing written
    fun buf hbuf => (newBufs_mem _ _ buf hbuf).2.2, newBufs_data _ _ (Nat.le_refl _)]

theorem appendNew_pending (rb : RawbufHead) (data : Bytes) :
    (appendNew rb data).pending = rb.pending ++ data :=
  flatMap_data_append rb.list data rb.written

theorem HeadOk.appendNew {rb : RawbufHead} (h : HeadOk rb) (data : Bytes) :
    HeadOk (appendNew rb data) := by
  have hnew := newBufs_mem data.length data
  -- an old head stays the head
  have hhead : ∀ b ∈ (rb.list ++ newBufs data.length data).head?, b.flushing = true →
      b ∈ rb.list.head? := by
    intro b hb hflush
    cases hlist : rb.list with
    | nil =>
      rw [hlist] at hb
      have hidle := (hnew b (List.mem_of_mem_head? hb)).2.2
      rw [hflush] at hidle
      cases hidle
    | cons c list =>
      rw [hlist] at hb
      exact hb
  refine ⟨fun b hb => ?_, fun b hb => ?_, fun b hb => ?_, fun b hb hflush => ?_,
    fun b hb hflush => ?_⟩
  · rcases List.mem_append.mp hb with hb | hb
    · exact h.nonempty b hb
    · exact (hnew b hb).1
  · rcases List.mem_append.mp hb with hb | hb
    · exact h.length_le b hb
    · exact (hnew b hb).2.1
  · cases hlist : rb.list with
    | nil =>
      unfold Raw.appendNew at hb
      rw [hlist] at hb
      exact (hnew b (List.mem_of_mem_tail hb)).2.2
    | cons c list =>
      unfold Raw.appendNew at hb
      rw [hlist] at hb
      rcases List.mem_append.mp hb with hb | hb
      · exact h.tail b (by rwa [hlist])
      · exact (hnew b hb).2.2
  · exact h.written_nonneg b (hhead b hb hflush) hflush
  · exact h.written_lt b (hhead b hb hflush) hflush

/-- More data in the last buffer. -/
def RawbufHead.fill (rb : RawbufHead) (init : List Rawbuf) (buf : Rawbuf) (more : Bytes)
    (len : Int) : RawbufHead :=
  { rb with list := init ++ [{ buf with data := buf.data ++ more }], len := len }

theorem fill_pending {rb : RawbufHead} {init : List Rawbuf} {buf : Rawbuf}
    (hlist : rb.list = init ++ [buf]) (hidle : buf.flushing = false) (more : Bytes) (len : Int) :
    (rb.fill init buf more len).pending = rb.pending ++ more := by
  have hrest : ({ buf with data := buf.data ++ more } : Rawbuf).rest rb.written
      = buf.rest rb.written ++ more := by
    rw [Rawbuf.rest_of_not_flushing hidle]
    exact @Rawbuf.rest_of_not_flushing ⟨buf.data ++ more, buf.flushing⟩ hidle _
  rw [RawbufHead.pending, RawbufHead.pending, RawbufHead.fill, hlist, List.flatMap_append,
    List.flatMap_append, List.flatMap_singleton, List.flatMap_singleton, hrest, List.append_assoc]

theorem HeadOk.fill {rb : RawbufHead} (h : HeadOk rb) {init : List Rawbuf} {buf : Rawbuf}
    (hlist : rb.list = init ++ [buf]) (hidle : buf.flushing = false) {more : Bytes}
    (hfits : buf.data.length + more.length ≤ rawbufSize) (len : Int) :
    HeadOk (rb.fill init buf more len) := by
  have hmem : ∀ b ∈ init, b ∈ rb.list := by
    intro b hb
    rw [hlist]
    exact List.mem_append_left _ hb
  have hbuf : buf ∈ rb.list := by
    rw [hlist]
    exact List.mem_append_right _ List.mem_cons_self
  have hhead : ∀ b ∈ (rb.fill init buf more len).list.head?, b.flushing = true →
      b ∈ rb.list.head? := by
    intro b hb hflush
    cases init with
    | nil =>
      obtain rfl := Option.some.inj hb
      rw [hidle] at hflush
      cases hflush
    | cons c init =>
      rw [hlist]
      exact hb
  refine ⟨fun b hb => ?_, fun b hb => ?_, fun b hb => ?_, fun b hb hflush => ?_,
    fun b hb hflush => ?_⟩
  · rcases List.mem_append.mp hb with hb | hb
    · exact h.nonempty b (hmem b hb)
    · obtain rfl := List.mem_singleton.mp hb
      exact fun hnil => h.nonempty buf hbuf (List.append_eq_nil_iff.mp hnil).1
  · rcases List.mem_append.mp hb with hb | hb
    · exact h.length_le b (hmem b hb)
    · obtain rfl := List.mem_singleton.mp hb
      rw [List.length_append]
      exact hfits
  · cases init with
    | nil => cases hb
    | cons c init =>
      rcases List.mem_append.mp hb with hb | hb
      · exact h.tail b (by rw [hlist]; exact List.mem_append_left _ hb)
      · obtain rfl := List.mem_singleton.mp hb
        exact hidle
  · exact h.written_nonneg b (hhead b hb hflush) hflush
  · exact h.written_lt b (hhead b hb hflush) hflush

/-- An append puts the data behind what is pending. -/
theorem rbRawbufAppend_spec {rb : RawbufHead} (h : HeadOk rb) (data : Bytes) :
    HeadOk (rbRawbufAppend rb data) ∧ (rbRawbufAppend rb data).pending = rb.pending ++ data ∧
    (rbRawbufAppend rb data).len = rb.len + data.length := by
  have hnew : HeadOk (appendNew rb data) ∧ (appendNew rb data).pending = rb.pending ++ data ∧
      (appendNew rb data).len = rb.len + data.length :=
    ⟨h.appendNew data, appendNew_pending rb data, rfl⟩
  unfold rbRawbufAppend
  cases hlast : rb.list.getLast? with
  | none => exact hnew
  | some buf =>
    dsimp only
    by_cases hroom : buf.data.length < rawbufSize ∧ buf.flushing = false
    · rw [if_pos hroom]
      have hlist : rb.list = rb.list.dropLast ++ [buf] :=
        (List.dropLast_append_getLast? buf hlast).symm
      have hclen : (data.take (min data.length (rawbufSize - buf.data.length))).length
          = min data.length (rawbufSize - buf.data.length) := by
        rw [List.length_take]
        omega
      have hfits : buf.data.length
          + (data.take (min data.length (rawbufSize - buf.data.length))).length ≤ rawbufSize := by
        rw [hclen]
        omega
      have hfill := h.fill hlist hroom.2 hfits
        (rb.len + (min data.length (rawbufSize - buf.data.length) : Nat))
      have hpending := fill_pending hlist hroom.2
        (data.take (min data.length (rawbufSize - buf.data.length)))
        (rb.len + (min data.length (rawbufSize - buf.data.length) : Nat))
      refine ⟨hfill.appendNew _, ?_, ?_⟩
      · refine (appendNew_pending _ _).trans ?_
        rw [RawbufHead.fill] at hpending
        rw [hpending, List.append_assoc, List.take_append_drop]
      · unfold appendNew
        rw [List.length_drop]
        dsimp only
        omega
    · rw [if_neg hroom]
      exact hnew

-- ============================================================================
-- Flushing
-- ============================================================================

/-- The loop retires `xret` bytes. -/
theorem retireLoop_spec (x : Nat) : ∀ {rb : RawbufHead} {xret : Int}, HeadOk rb → 0 ≤ xret →
    xret ≤ ((rb.list.take x).flatMap fun buf => buf.rest rb.written).length →
    (∀ buf ∈ rb.list.head?, buf.flushing = true →
      rb.written = 0 ∨ buf.len - rb.written ≤ xret) →
    HeadOk (retireLoop x xret rb) ∧
    (retireLoop x xret rb).pending = rb.pending.drop xret.toNat ∧
    (retireLoop x xret rb).len = rb.len - xret := by
  induction x with
  | zero =>
    intro rb xret h hnonneg hle _
    rw [List.take_zero, List.flatMap_nil, List.length_nil] at hle
    obtain rfl : xret = 0 := by omega
    rw [retireLoop]
    exact ⟨h, rfl, (Int.sub_zero _).symm⟩
  | succ x ih =>
    intro rb xret h hnonneg hle hhead
    rw [retireLoop]
    cases hlist : rb.list with
    | nil =>
      rw [hlist, List.take_nil, List.flatMap_nil, List.length_nil] at hle
      obtain rfl : xret = 0 := by omega
      exact ⟨h, rfl, (Int.sub_zero _).symm⟩
    | cons buf list =>
      dsimp only
      have hrest := h.rest_length hlist
      have hpending := h.pending_cons hlist
      have hidle : ∀ b ∈ list, b.flushing = false := by
        intro b hb
        exact h.tail b (by rwa [hlist])
      rw [hlist, List.take_succ_cons, List.flatMap_cons, List.length_append] at hle
      rw [hlist] at hhead
      -- one buffer is done: the rest of the bytes come off the others
      have hdone : ∀ n : Int, ((buf.rest rb.written).length : Int) = n → n ≤ xret →
          HeadOk (retireLoop x (xret - n) { rb with list := list, len := rb.len - n }) ∧
          (retireLoop x (xret - n) { rb with list := list, len := rb.len - n }).pending
            = rb.pending.drop xret.toNat ∧
          (retireLoop x (xret - n) { rb with list := list, len := rb.len - n }).len
            = rb.len - xret := by
        intro n hn hge
        have hnext := @ih { rb with list := list, len := rb.len - n } (xret - n)
          (h.of_tail hlist _ _) (by omega) (by dsimp only; omega) ?_
        · obtain ⟨hok, hpend, hlen⟩ := hnext
          refine ⟨hok, ?_, ?_⟩
          · have hbefore : (buf.rest rb.written).length ≤ xret.toNat := by omega
            have hafter : (xret - n).toNat = xret.toNat - (buf.rest rb.written).length := by omega
            rw [hpend, hpending, RawbufHead.pending, flatMap_rest_of_not_flushing _ hidle, hafter,
              List.drop_append, List.drop_eq_nil_of_le hbefore, List.nil_append]
          · rw [hlen]
            dsimp only
            omega
        · intro b hb hflush
          rw [hidle b (List.mem_of_mem_head? hb)] at hflush
          cases hflush
      by_cases hfirst : buf.flushing = true ∧ xret ≥ buf.len - rb.written
      · rw [if_pos hfirst]
        rw [if_pos hfirst.1] at hrest
        exact hdone _ hrest hfirst.2
      · rw [if_neg hfirst]
        by_cases hflush : buf.flushing = true
        · -- a head that was part written before and is not done now
          have hwritten : rb.written = 0 := by
            rcases hhead buf rfl hflush with h0 | hge
            · exact h0
            · exact absurd ⟨hflush, hge⟩ hfirst
          have hlt : xret < buf.len := by
            rcases lt_or_ge xret buf.len with hlt | hge
            · exact hlt
            · exact absurd ⟨hflush, by rw [hwritten]; omega⟩ hfirst
          rw [if_neg (by omega)]
          refine ⟨h.part_written hlist hnonneg hlt _, ?_, rfl⟩
          have hdata : buf.rest rb.written = buf.data := by
            rw [Rawbuf.rest, if_pos hflush, hwritten]
            rfl
          rw [(h.part_written hlist hnonneg hlt (rb.len - xret)).pending_cons rfl,
            rest_part_written, hpending, hdata, List.drop_append_of_le_length]
          unfold Rawbuf.len at hlt
          omega
        · rw [if_neg hflush] at hrest
          by_cases hge : xret ≥ buf.len
          · rw [if_pos hge]
            exact hdone _ hrest hge
          · rw [if_neg hge]
            have hlt : xret < buf.len := by omega
            refine ⟨h.part_written hlist hnonneg hlt _, ?_, rfl⟩
            rw [(h.part_written hlist hnonneg hlt (rb.len - xret)).pending_cons rfl,
              rest_part_written, hpending,
              Rawbuf.rest_of_not_flushing (Bool.eq_false_iff.mpr hflush),
              List.drop_append_of_le_length]
            unfold Rawbuf.len at hlt
            omega

/-- The bytes a flush accepts leave the front of what is pending. -/
structure Flushed (rb : RawbufHead) (r : FlushResult) : Prop where
  ok : HeadOk r.head
  pending_eq : r.accepted ++ r.head.pending = rb.pending
  len_eq : r.head.len = rb.len - r.accepted.length

theorem HeadOk.flushed_fail {rb : RawbufHead} (h : HeadOk rb) (retval : Int) :
    Flushed rb ⟨rb, retval, []⟩ :=
  ⟨h, rfl, (Int.sub_zero _).symm⟩

theorem rbRawbufFlushWritev_spec (maxiov : Nat) {rb : RawbufHead} (h : HeadOk rb) {taken : Int}
    (hhead : ∀ buf ∈ rb.list.head?, buf.flushing = true →
      rb.written = 0 ∨ taken ≤ 0 ∨ buf.len - rb.written ≤ taken) :
    Flushed rb (rbRawbufFlushWritev maxiov rb fun offered => min taken offered.length) := by
  unfold rbRawbufFlushWritev
  dsimp only
  by_cases hvec : rb.list.take maxiov = []
  · rw [if_pos hvec]
    exact h.flushed_fail _
  · rw [if_neg hvec]
    have hoffered : rb.pending.take ((rb.list.take maxiov).flatMap
        fun buf => buf.rest rb.written).length
        = (rb.list.take maxiov).flatMap fun buf => buf.rest rb.written := by
      have happend : rb.pending = ((rb.list.take maxiov).flatMap fun buf => buf.rest rb.written)
          ++ (rb.list.drop maxiov).flatMap fun buf => buf.rest rb.written := by
        rw [RawbufHead.pending, ← List.flatMap_append, List.take_append_drop]
      rw [happend, List.take_left]
    -- the head is offered, so what is taken of the offer covers its rest
    have hfirst : ∀ buf ∈ rb.list.head?, buf.flushing = true → buf.len - rb.written
        ≤ ((rb.list.take maxiov).flatMap fun buf => buf.rest rb.written).length := by
      intro buf hbuf hflush
      cases hlist : rb.list with
      | nil =>
        rw [hlist] at hbuf
        cases hbuf
      | cons c list =>
        rw [hlist] at hbuf
        obtain rfl := Option.some.inj hbuf
        have hrest := h.rest_length hlist
        rw [if_pos hflush] at hrest
        cases maxiov with
        | zero => exact absurd (List.take_zero) hvec
        | succ n =>
          rw [List.take_succ_cons, List.flatMap_cons, List.length_append]
          omega
    generalize hlen : ((rb.list.take maxiov).flatMap fun buf => buf.rest rb.written).length = len
      at hoffered hfirst ⊢
    by_cases hfail : min taken (len : Int) ≤ 0
    · rw [if_pos hfail]
      exact h.flushed_fail _
    · rw [if_neg hfail]
      have hcount : min taken (len : Int) ≤ ((rb.list.take (rb.list.take maxiov).length).flatMap
          fun buf => buf.rest rb.written).length := by
        rw [List.length_take, ← List.take_eq_take_min, hlen]
        exact min_le_right _ _
      have hends : ∀ buf ∈ rb.list.head?, buf.flushing = true →
          rb.written = 0 ∨ buf.len - rb.written ≤ min taken (len : Int) := by
        intro buf hbuf hflush
        have hge := hfirst buf hbuf hflush
        rcases hhead buf hbuf hflush with h0 | h0 | h0
        · exact Or.inl h0
        · omega
        · exact Or.inr (by omega)
      obtain ⟨hok, hpending, hlen'⟩ := retireLoop_spec _ h (by omega) hcount hends
      refine ⟨hok, ?_, ?_⟩
      · dsimp only
        rw [hpending, ← hoffered, List.take_take, min_eq_left (by omega), List.take_append_drop]
      · dsimp only
        rw [hlen', List.length_take, hlen]
        omega

/-- A flush that meets the condition gives up the bytes that were accepted. -/
theorem rbRawbufFlush_spec (maxiov : Nat) (ssl : Bool) {l : Log} (h : HeadOk l.rb) {taken : Int}
    (hends : (Op.flush taken).endsHead ssl l = true) :
    Flushed l.rb (rbRawbufFlush maxiov ssl l.rb fun offered => min taken offered.length) := by
  unfold rbRawbufFlush
  cases hlist : l.rb.list with
  | nil => exact h.flushed_fail _
  | cons buf list =>
    dsimp only
    unfold Op.endsHead at hends
    rw [hlist] at hends
    dsimp only at hends
    cases ssl with
    | false =>
      refine rbRawbufFlushWritev_spec maxiov h ?_
      intro b hb hflush
      rw [hlist] at hb
      obtain rfl := Option.some.inj hb
      rw [hflush] at hends
      simpa [or_assoc] using hends
    | true =>
      rw [if_neg (by decide)]
      -- the offset the write starts from
      generalize hwritten : (if buf.flushing = true then l.rb.written else 0) = written
      have hmem : buf ∈ l.rb.list := by
        rw [hlist]
        exact List.mem_cons_self
      have hhead : buf ∈ l.rb.list.head? := by
        rw [hlist]
        rfl
      have hpos : 0 < buf.data.length := List.length_pos_of_ne_nil (h.nonempty buf hmem)
      have hbounds : 0 ≤ written ∧ written < buf.len := by
        rw [← hwritten]
        split
        · rename_i hflush
          exact ⟨h.written_nonneg buf hhead hflush, h.written_lt buf hhead hflush⟩
        · refine ⟨le_refl _, ?_⟩
          unfold Rawbuf.len
          omega
      have hrest : buf.rest l.rb.written = buf.data.drop written.toNat := by
        rw [← hwritten]
        unfold Rawbuf.rest
        split
        · rfl
        · rfl
      have hpending : l.rb.pending = buf.data.drop written.toNat ++ list.flatMap (·.data) := by
        rw [h.pending_cons hlist, hrest]
      rw [rest_part_written]
      have hlen : (buf.data.drop written.toNat).length = (buf.len - written).toNat := by
        rw [List.length_drop]
        unfold Rawbuf.len
        omega
      have hput : ∀ len retval : Int, 0 ≤ retval → written + retval < buf.len →
          (⟨{ buf with flushing := true } :: list, len, written + retval⟩ : RawbufHead).pending
            = l.rb.pending.drop retval.toNat := by
        intro len retval hnonneg hlt
        rw [(h.part_written hlist (by omega) hlt len).pending_cons rfl, rest_part_written, hpending,
          List.drop_append_of_le_length (by omega), List.drop_drop, ← Int.toNat_add hbounds.1 hnonneg]
      generalize hret : min taken ((buf.data.drop written.toNat).length : Int) = retval
      have hle : retval ≤ buf.len - written := by omega
      by_cases hfail : retval ≤ 0
      · rw [if_pos hfail]
        have hsame := hput l.rb.len 0 (le_refl _) (by omega)
        rw [Int.add_zero] at hsame
        exact ⟨h.part_written hlist hbounds.1 hbounds.2 _, hsame, (Int.sub_zero _).symm⟩
      · rw [if_neg hfail]
        have htake : (buf.data.drop written.toNat).take retval.toNat
            = l.rb.pending.take retval.toNat := by
          rw [hpending, List.take_append_of_le_length (by omega)]
        have hcount : (((buf.data.drop written.toNat).take retval.toNat).length : Int) = retval := by
          rw [List.length_take]
          omega
        by_cases hend : written + retval = ({ buf with flushing := true } : Rawbuf).len
        · rw [if_pos hend]
          have hend' : written + retval = buf.len := hend
          refine ⟨h.of_tail hlist _ _, ?_, ?_⟩
          · dsimp only
            rw [List.take_of_length_le (by omega), hpending, RawbufHead.pending,
              flatMap_rest_of_not_flushing]
            intro b hb
            exact h.tail b (by rwa [hlist])
          · dsimp only
            rw [hcount]
        · rw [if_neg hend]
          have hlt : written + retval < buf.len := by
            have hne : written + retval ≠ buf.len := hend
            omega
          refine ⟨h.part_written hlist (by omega) hlt _, ?_, ?_⟩
          · dsimp only
            rw [hput _ _ (by omega) hlt, htake, List.take_append_drop]
          · dsimp only
            rw [hcount]

-- ============================================================================
-- Whole runs
-- ============================================================================

/-- The inductive invariant: a sound queue and an exact account. -/
def Log.Inv (l : Log) : Prop := HeadOk l.rb ∧ l.Intact

theorem Log.inv_start : Log.start.Inv := by
  refine ⟨⟨?_, ?_, ?_, ?_, ?_⟩, rfl, rfl⟩
  all_goals
    intro buf hbuf
    cases hbuf

theorem Log.Inv.step {maxiov : Nat} {ssl : Bool} {l l' : Log} {op : Op} (h : l.Inv)
    (hends : op.endsHead ssl l = true) (hs : l.step maxiov ssl op = some l') : l'.Inv := by
  obtain ⟨hok, hbytes, hlen⟩ := h
  cases op with
  | append data =>
    obtain rfl := Option.some.inj hs
    obtain ⟨hok', hpending, hlen'⟩ := rbRawbufAppend_spec hok data
    refine ⟨hok', ?_, ?_⟩
    · dsimp only
      rw [hpending, ← List.append_assoc, hbytes]
    · rw [rbRawbufLength] at hlen ⊢
      dsimp only
      rw [hlen', hpending, hlen, List.length_append, Nat.cast_add]
  | flush taken =>
    obtain rfl := Option.some.inj hs
    have hflushed := rbRawbufFlush_spec maxiov ssl hok hends
    refine ⟨hflushed.ok, ?_, ?_⟩
    · dsimp only
      rw [List.append_assoc, hflushed.pending_eq, hbytes]
    · rw [rbRawbufLength] at hlen ⊢
      dsimp only
      rw [hflushed.len_eq, hlen, ← hflushed.pending_eq, List.length_append, Nat.cast_add]
      omega

/-- In every run on a descriptor of one kind in which no vector write ends inside
    a head buffer that was part written before, the accepted bytes followed by the
    pending ones are the bytes appended, and the length is exact. -/
theorem intact_of_endsHead_run {maxiov : Nat} {ssl : Bool} {l : Log}
    (h : Reach (Log.step maxiov ssl) (fun l op => op.endsHead ssl l = true) Log.start l) :
    l.Intact :=
  (h.invariant (P := Log.Inv) Log.inv_start fun _ _ _ hinv hends hs => hinv.step hends hs).2

/-- Four bytes, of which a vector write takes one and the next one the rest. -/
theorem intact_after_two_writes :
    ∃ l : Log, l.Intact ∧ l.accepted = [97, 98, 99, 100] ∧ l.rb.pending = [] := by
  have hreach : Reach (Log.step 16 false) (fun l op => op.endsHead false l = true) Log.start
      ([Op.append [97, 98, 99, 100], .flush 1, .flush 3].foldl
        (Reach.perform (Log.step 16 false)) Log.start) := by
    simp only [List.foldl_cons, List.foldl_nil]
    exact ((Reach.init.performed (by decide)).performed (by decide)).performed
      (by decide)
  exact ⟨_, intact_of_endsHead_run hreach, by decide, by decide⟩

/-- When two vector writes take one byte each, the second byte is pending again. -/
theorem not_intact_after_short_writes :
    ¬ ∀ (maxiov : Nat) (ssl : Bool) (l : Log),
      Reach (Log.step maxiov ssl) anyStep Log.start l → l.Intact := by
  intro h
  have hintact := h 16 false _ (Reach.performed_all
    [Op.append [97, 98, 99, 100], .flush 1, .flush 1] .init)
  revert hintact
  decide

end Bluebox.Raw
