/-
  Bluebox.Linebuf.Account

  The counters of the line queues over whole runs.  Seven operations update
  `len`, `numlines`, `alloclen` and `refcount` separately; `Accounted` says
  what they have to agree on.

  Each operation is a composition of five primitive changes (a new line, a
  line that grows, the head line done, one line attached, `writeofs` moved),
  and the invariant is proved for those.  One of them can go wrong: the
  overflow branches of the copy functions add a full buffer to `bufhead->len`
  even when part of the line was counted before.  `Op.Exact` is the condition
  under which an operation does not do that.
-/
import Mathlib
import Bluebox.Lib.Reach
import Bluebox.Linebuf.Basic

namespace Bluebox.Linebuf

open Bluebox.Lib

variable {ι : Type _} [DecidableEq ι]

-- ============================================================================
-- The operations and their runs
-- ============================================================================

/-- A call of one of the queue functions.  A flush carries the outcome of the
    write: the number of bytes the descriptor takes, or a failure when it is
    not positive. -/
inductive Op (ι : Type _)
  | parse (q : ι) (data : Bytes) (raw : Bool)
  | get (q : ι) (buflen : Int) (isPartial raw : Bool)
  | put (q : ι) (expanded : Option Bytes)
  | putbuf (q : ι) (buffer : Option Bytes)
  | putmsg (q : ι) (pfx body : Option Bytes)
  | attach (bufhead new : ι)
  | flush (q : ι) (useWritev : Bool) (taken : Int)

/-- A descriptor that takes up to `taken` of the offered bytes. -/
def takesUpTo (taken : Int) (offered : Bytes) : Int := min taken offered.length

/-- Run one call. -/
def Op.step (s : Sys ι) : Op ι → Option (Sys ι)
  | .parse q data raw => some (rbLinebufParse s q data raw).1
  | .get q buflen isPartial raw => some (rbLinebufGet s q buflen isPartial raw).1
  | .put q expanded => rbLinebufPut s q expanded
  | .putbuf q buffer => rbLinebufPutbuf s q buffer
  | .putmsg q pfx body => rbLinebufPutmsg s q pfx body
  | .attach bufhead new => rbLinebufAttach s bufhead new
  | .flush q useWritev taken => some (rbLinebufFlush s q useWritev (takesUpTo taken)).sys

-- ============================================================================
-- What the counters have to say
-- ============================================================================

/-- The sum of the `len` fields of the queued lines. -/
def lenSum (s : Sys ι) (list : List Nat) : Int := (list.map fun id => (s.line id).len).sum

/-- The queues that contain a line. -/
def holders [Fintype ι] (s : Sys ι) (id : Nat) : Finset ι :=
  Finset.univ.filter fun q => id ∈ (s.head q).list

/-- The counters agree with the queues: `len` is the sum of the line lengths,
    `numlines` and `alloclen` are the number of lines, no line has a negative
    length, and `refcount` is the number of queues the line is on. -/
structure Accounted [Fintype ι] (s : Sys ι) : Prop where
  len_eq : ∀ q, (s.head q).len = lenSum s (s.head q).list
  numlines_eq : ∀ q, (s.head q).numlines = (s.head q).list.length
  alloclen_eq : ∀ q, (s.head q).alloclen = (s.head q).list.length
  len_nonneg : ∀ q, ∀ id ∈ (s.head q).list, 0 ≤ (s.line id).len
  refcount_eq : ∀ id < s.next, (s.line id).refcount = (holders s id).card

/-- What the invariant says of one queue: its counters are right, and it holds
    allocated lines of non-negative length, each at most once. -/
structure QueueOk (line : Nat → BufLine) (next : Nat) (h : BufHead) : Prop where
  len_eq : h.len = (h.list.map fun id => (line id).len).sum
  numlines_eq : h.numlines = h.list.length
  alloclen_eq : h.alloclen = h.list.length
  len_nonneg : ∀ id ∈ h.list, 0 ≤ (line id).len
  nodup : h.list.Nodup
  allocated : ∀ id ∈ h.list, id < next

/-- The inductive invariant of the runs. -/
structure CountInv [Fintype ι] (s : Sys ι) : Prop where
  queue : ∀ q, QueueOk s.line s.next (s.head q)
  refcount_eq : ∀ id < s.next, (s.line id).refcount = (holders s id).card

omit [DecidableEq ι] in
theorem CountInv.accounted [Fintype ι] {s : Sys ι} (h : CountInv s) : Accounted s where
  len_eq q := (h.queue q).len_eq
  numlines_eq q := (h.queue q).numlines_eq
  alloclen_eq q := (h.queue q).alloclen_eq
  len_nonneg q := (h.queue q).len_nonneg
  refcount_eq := h.refcount_eq

/-- Only `q` has the line. -/
def OnlyOn (s : Sys ι) (q : ι) (id : Nat) : Prop := ∀ q', id ∈ (s.head q').list → q' = q

/-- The condition under which a call keeps the counters exact.  Data parsed
    onto a pending tail line fits into it, and no other queue shares that
    line; a queue is not given a line it already has. -/
def Op.Exact (s : Sys ι) : Op ι → Prop
  | .parse q data _ => ∀ id, (s.head q).list.getLast? = some id → (s.line id).terminated = false →
      (rbLinebufSkipCrlf data : Int) ≤ bufDataSize - (s.line id).len - 1 ∧ OnlyOn s q id
  | .attach bufhead new => ∀ id ∈ (s.head new).list, id ∉ (s.head bufhead).list
  | _ => True

omit [DecidableEq ι] in
theorem countInv_start [Fintype ι] : CountInv (Sys.start : Sys ι) where
  queue _ := ⟨rfl, rfl, rfl, fun _ h => absurd h List.not_mem_nil, List.nodup_nil,
    fun _ h => absurd h List.not_mem_nil⟩
  refcount_eq _ h := absurd h (Nat.not_lt_zero _)

-- ============================================================================
-- Frame rules
-- ============================================================================

/-- The invariant of a queue reads nothing but the lengths of its lines. -/
theorem QueueOk.frame {line line' : Nat → BufLine} {next next' : Nat} {h : BufHead}
    (hq : QueueOk line next h) (hlen : ∀ id ∈ h.list, (line' id).len = (line id).len)
    (hnext : next ≤ next') : QueueOk line' next' h where
  len_eq := by rw [hq.len_eq, List.map_congr_left hlen]
  numlines_eq := hq.numlines_eq
  alloclen_eq := hq.alloclen_eq
  len_nonneg id hid := by rw [hlen id hid]; exact hq.len_nonneg id hid
  nodup := hq.nodup
  allocated id hid := Nat.lt_of_lt_of_le (hq.allocated id hid) hnext

/-- A change of one queue `q` that leaves the lengths of the other queues' lines
    alone keeps the invariant when it keeps it for `q` and for the refcounts. -/
theorem CountInv.of_change [Fintype ι] {s t : Sys ι} {q : ι} (h : CountInv s)
    (hhead : ∀ q', q' ≠ q → t.head q' = s.head q')
    (hlen : ∀ q', q' ≠ q → ∀ id ∈ (s.head q').list, (t.line id).len = (s.line id).len)
    (hnext : s.next ≤ t.next) (hq : QueueOk t.line t.next (t.head q))
    (href : ∀ id < t.next, (t.line id).refcount = (holders t id).card) : CountInv t where
  queue q' := by
    by_cases hqq : q' = q
    · rw [hqq]; exact hq
    · rw [hhead q' hqq]
      exact (h.queue q').frame (hlen q' hqq) hnext
  refcount_eq := href

omit [DecidableEq ι] in
@[simp] theorem mem_holders [Fintype ι] {s : Sys ι} {id : Nat} {q : ι} :
    q ∈ holders s id ↔ id ∈ (s.head q).list := by
  simp [holders]

omit [DecidableEq ι] in
/-- The holders of a line only depend on which queues list it. -/
theorem holders_congr [Fintype ι] {s t : Sys ι} {id : Nat}
    (h : ∀ q, id ∈ (t.head q).list ↔ id ∈ (s.head q).list) : holders t id = holders s id := by
  ext q
  rw [mem_holders, mem_holders]
  exact h q

/-- When one line of a duplicate-free list changes its length, the sum of the
    lengths changes by the difference. -/
theorem sum_len_grow {line line' : Nat → BufLine} {list : List Nat} {id : Nat}
    (hmem : id ∈ list) (hnodup : list.Nodup)
    (hother : ∀ i, i ≠ id → (line' i).len = (line i).len) :
    (list.map fun i => (line' i).len).sum =
      (list.map fun i => (line i).len).sum + ((line' id).len - (line id).len) := by
  induction list with
  | nil => exact absurd hmem List.not_mem_nil
  | cons x rest ih =>
    obtain ⟨hx, hrest⟩ := List.nodup_cons.mp hnodup
    simp only [List.map_cons, List.sum_cons]
    by_cases hxid : x = id
    · subst hxid
      have hsame : (rest.map fun i => (line' i).len) = rest.map fun i => (line i).len :=
        List.map_congr_left fun i hi => hother i (fun heq => hx (heq ▸ hi))
      rw [hsame]
      omega
    · have hmem' : id ∈ rest := (List.mem_cons.mp hmem).resolve_left (fun heq => hxid heq.symm)
      rw [ih hmem' hrest, hother x hxid]
      omega

-- ============================================================================
-- The primitive changes
-- ============================================================================

section Primitive

variable [Fintype ι] {s : Sys ι} {q : ι}

/-- Moving the write offset touches no counter. -/
theorem CountInv.setWriteofs (h : CountInv s) (w : Int) :
    CountInv (s.setHead q { s.head q with writeofs := w }) := by
  refine h.of_change (q := q) (fun q' hq => by simp [hq]) (fun _ _ _ _ => rfl)
    (Nat.le_refl _) ?_ ?_
  · have hq := h.queue q
    simpa using (⟨hq.len_eq, hq.numlines_eq, hq.alloclen_eq, hq.len_nonneg, hq.nodup,
      hq.allocated⟩ : QueueOk s.line s.next { s.head q with writeofs := w })
  · intro id hid
    rw [holders_congr (s := s)]
    · exact h.refcount_eq id hid
    · intro q'
      by_cases hq : q' = q
      · subst hq; simp
      · simp [hq]

/-- `rb_linebuf_new_line`: the new line is empty and only on `q`. -/
theorem CountInv.newLine (h : CountInv s) : CountInv (rbLinebufNewLine s q).1 := by
  have hfresh : ∀ q', s.next ∉ (s.head q').list :=
    fun q' hmem => absurd ((h.queue q').allocated _ hmem) (Nat.lt_irrefl _)
  have hne : ∀ q', ∀ id ∈ (s.head q').list, id ≠ s.next :=
    fun q' id hid heq => hfresh q' (heq ▸ hid)
  have hlen : ∀ q', ∀ id ∈ (s.head q').list,
      ((rbLinebufNewLine s q).1.line id).len = (s.line id).len := by
    intro q' id hid
    simp [rbLinebufNewLine, hne q' id hid]
  refine h.of_change (q := q) (fun q' hq => by simp [rbLinebufNewLine, hq])
    (fun q' _ => hlen q') (Nat.le_succ _) ?_ ?_
  · have hq := (h.queue q).frame (hlen q) (Nat.le_succ s.next)
    refine ⟨?_, ?_, ?_, ?_, ?_, ?_⟩
    · simpa [rbLinebufNewLine, BufLine.alloc] using hq.len_eq
    · simp [rbLinebufNewLine, hq.numlines_eq]
    · simp [rbLinebufNewLine, hq.alloclen_eq]
    · intro id hid
      simp only [rbLinebufNewLine, Function.update_self, List.mem_append,
        List.mem_singleton] at hid
      rcases hid with hid | rfl
      · exact hq.len_nonneg id hid
      · simp [rbLinebufNewLine, BufLine.alloc]
    · simpa [rbLinebufNewLine, List.nodup_append, hq.nodup] using hne q
    · intro id hid
      simp only [rbLinebufNewLine, Function.update_self, List.mem_append,
        List.mem_singleton] at hid ⊢
      rcases hid with hid | rfl
      · exact hq.allocated id hid
      · exact Nat.lt_succ_self _
  · intro id hid
    by_cases hid' : id = s.next
    · subst hid'
      have : holders (rbLinebufNewLine s q).1 s.next = {q} := by
        ext q'
        by_cases hq : q' = q
        · subst hq; simp [rbLinebufNewLine]
        · simp [rbLinebufNewLine, hq, hfresh q']
      rw [this]
      simp [rbLinebufNewLine]
    · have hlt : id < s.next := by
        simp only [rbLinebufNewLine] at hid
        omega
      rw [holders_congr (s := s)]
      · simpa [rbLinebufNewLine, hid'] using h.refcount_eq id hlt
      · intro q'
        by_cases hq : q' = q
        · subst hq; simp [rbLinebufNewLine, hid']
        · simp [rbLinebufNewLine, hq]

/-- `rb_linebuf_done_line`: the head line leaves the queue with its length. -/
theorem CountInv.doneLine (h : CountInv s) : CountInv (rbLinebufDoneLine s q) := by
  cases hlist : (s.head q).list with
  | nil => rw [rbLinebufDoneLine_nil hlist]; exact h
  | cons id rest =>
    rw [rbLinebufDoneLine_cons hlist]
    have hq := h.queue q
    obtain ⟨hid, hrest⟩ : id ∉ rest ∧ rest.Nodup := List.nodup_cons.mp (hlist ▸ hq.nodup)
    have hlen : ∀ i, (Function.update s.line id
        { s.line id with refcount := (s.line id).refcount - 1 } i).len = (s.line i).len := by
      intro i
      by_cases hi : i = id
      · subst hi; simp
      · simp [hi]
    refine h.of_change (q := q) (fun q' hqq => by simp [hqq])
      (fun _ _ i _ => hlen i) (Nat.le_refl _) ?_ ?_
    · have hsum := hq.len_eq
      have hnum := hq.numlines_eq
      have halloc := hq.alloclen_eq
      rw [hlist] at hsum hnum halloc
      simp only [List.map_cons, List.sum_cons, List.length_cons] at hsum hnum halloc
      refine ⟨?_, ?_, ?_, ?_, ?_, ?_⟩
      · simp only [Sys.setHead_head, Sys.setHead_line, Sys.setLine_head, Sys.setLine_line,
          Function.update_self, hlen]
        omega
      · simp only [Sys.setHead_head, Sys.setLine_head, Function.update_self]
        omega
      · simp only [Sys.setHead_head, Sys.setLine_head, Function.update_self]
        omega
      · intro i hi
        simp only [Sys.setHead_head, Sys.setLine_head, Function.update_self] at hi
        rw [Sys.setHead_line, Sys.setLine_line, hlen]
        exact hq.len_nonneg i (hlist ▸ List.mem_cons_of_mem _ hi)
      · simpa using hrest
      · intro i hi
        simp only [Sys.setHead_head, Sys.setLine_head, Function.update_self] at hi
        exact hq.allocated i (hlist ▸ List.mem_cons_of_mem _ hi)
    · intro i hi
      have hold := h.refcount_eq i hi
      by_cases hiid : i = id
      · -- the line itself loses the holder `q`
        subst hiid
        have hqmem : q ∈ holders s i := by simp [hlist]
        have hpos : 0 < (holders s i).card := Finset.card_pos.mpr ⟨q, hqmem⟩
        have herase : ∀ t : Sys ι, (∀ q', q' ∈ holders t i ↔ q' ≠ q ∧ q' ∈ holders s i) →
            (holders t i).card = (holders s i).card - 1 := by
          intro t ht
          rw [← Finset.card_erase_of_mem hqmem]
          congr 1
          ext q'
          rw [ht, Finset.mem_erase]
        rw [herase]
        · simp only [Sys.setHead_line, Sys.setLine_line, Function.update_self, hold]
          omega
        · intro q'
          by_cases hqq : q' = q
          · subst hqq; simp [hid]
          · simp [hqq]
      · rw [holders_congr (s := s)]
        · simpa [hiid] using hold
        · intro q'
          by_cases hqq : q' = q
          · subst hqq; simp [hlist, hiid]
          · simp [hqq]

/-- A line that only `q` has may change its length, when `bufhead->len` moves
    with it. -/
theorem CountInv.grow (h : CountInv s) {id : Nat} {l : BufLine}
    (hmem : id ∈ (s.head q).list) (honly : l.len = (s.line id).len ∨ OnlyOn s q id)
    (href : l.refcount = (s.line id).refcount) (hnonneg : 0 ≤ l.len) :
    CountInv ((s.setLine id l).setHead q
      { s.head q with len := (s.head q).len + (l.len - (s.line id).len) }) := by
  have hq := h.queue q
  have hother : ∀ i, i ≠ id → (Function.update s.line id l i).len = (s.line i).len := by
    intro i hi
    simp [hi]
  refine h.of_change (q := q) (fun q' hqq => by simp [hqq]) ?_ (Nat.le_refl _) ?_ ?_
  · intro q' hqq i hi
    by_cases hiid : i = id
    · subst hiid
      rcases honly with hsame | honly
      · simpa using hsame
      · exact absurd (honly q' hi) hqq
    · exact hother i hiid
  · refine ⟨?_, ?_, ?_, ?_, ?_, ?_⟩
    · simp only [Sys.setHead_head, Sys.setHead_line, Sys.setLine_head, Sys.setLine_line,
        Function.update_self]
      rw [sum_len_grow hmem hq.nodup hother, hq.len_eq, Function.update_self]
    · simpa using hq.numlines_eq
    · simpa using hq.alloclen_eq
    · intro i hi
      simp only [Sys.setHead_head, Sys.setLine_head, Function.update_self] at hi
      simp only [Sys.setHead_line, Sys.setLine_line]
      by_cases hiid : i = id
      · subst hiid; simpa using hnonneg
      · rw [hother i hiid]
        exact hq.len_nonneg i hi
    · simpa using hq.nodup
    · simpa using hq.allocated
  · intro i hi
    rw [holders_congr (s := s)]
    · by_cases hiid : i = id
      · subst hiid; simpa [href] using h.refcount_eq i hi
      · simpa [hiid] using h.refcount_eq i hi
    · intro q'
      by_cases hqq : q' = q
      · subst hqq; simp
      · simp [hqq]

/-- One round of `rb_linebuf_attach`, for a line `q` does not have. -/
theorem CountInv.attachLine (h : CountInv s) {id : Nat} (halloc : id < s.next)
    (hnew : id ∉ (s.head q).list) (hnonneg : 0 ≤ (s.line id).len) :
    CountInv (attachLine q s id) := by
  have hq := h.queue q
  have hlen : ∀ i, ((Linebuf.attachLine q s id).line i).len = (s.line i).len := by
    intro i
    by_cases hi : i = id
    · subst hi; simp [Linebuf.attachLine]
    · simp [Linebuf.attachLine, hi]
  refine h.of_change (q := q) (fun q' hqq => by simp [Linebuf.attachLine, hqq])
    (fun _ _ i _ => hlen i) (Nat.le_refl _) ?_ ?_
  · refine ⟨?_, ?_, ?_, ?_, ?_, ?_⟩
    · simp only [hlen]
      simp [Linebuf.attachLine, hq.len_eq]
    · simp [Linebuf.attachLine, hq.numlines_eq]
    · simp [Linebuf.attachLine, hq.alloclen_eq]
    · intro i hi
      rw [hlen]
      simp only [Linebuf.attachLine, Sys.setLine_head, Sys.setHead_head, Function.update_self,
        List.mem_append, List.mem_singleton] at hi
      rcases hi with hi | rfl
      · exact hq.len_nonneg i hi
      · exact hnonneg
    · have hne : ∀ i ∈ (s.head q).list, i ≠ id := fun i hi heq => hnew (heq ▸ hi)
      simpa [Linebuf.attachLine, List.nodup_append, hq.nodup] using hne
    · intro i hi
      simp only [Linebuf.attachLine, Sys.setLine_head, Sys.setHead_head, Function.update_self,
        List.mem_append, List.mem_singleton] at hi
      rcases hi with hi | rfl
      · exact hq.allocated i hi
      · exact halloc
  · intro i hi
    have hold := h.refcount_eq i hi
    by_cases hiid : i = id
    · -- the line itself gains the holder `q`
      subst hiid
      have hinsert : holders (Linebuf.attachLine q s i) i = insert q (holders s i) := by
        ext q'
        rw [mem_holders, Finset.mem_insert, mem_holders]
        by_cases hqq : q' = q
        · subst hqq; simp [Linebuf.attachLine]
        · simp [Linebuf.attachLine, hqq]
      rw [hinsert, Finset.card_insert_of_notMem (by simpa using hnew)]
      simp [Linebuf.attachLine, hold]
    · rw [holders_congr (s := s)]
      · simpa [Linebuf.attachLine, hiid] using hold
      · intro q'
        by_cases hqq : q' = q
        · subst hqq; simp [Linebuf.attachLine, hiid]
        · simp [Linebuf.attachLine, hqq]

end Primitive

-- ============================================================================
-- The copy functions
-- ============================================================================

theorem yankCrlf_le (full : Bytes) (cpylen : Nat) : yankCrlf full cpylen ≤ cpylen :=
  Nat.min_le_left _ _

/-- What a copy does to the counters of its line.  It keeps the refcount and a
    non-negative length; and unless it overflows a line that was counted before,
    it adds to `bufhead->len` what the line grows by. -/
structure CopyCounts (l : BufLine) (data : Bytes) (c : Copied) : Prop where
  refcount_eq : c.line.refcount = l.refcount
  len_nonneg : 0 ≤ l.len → 0 ≤ c.line.len
  of_terminated : l.terminated = true → c.line.len = l.len
  added_eq : l.terminated = true ∨ l.len = 0 ∨
    (rbLinebufSkipCrlf data : Int) ≤ bufDataSize - l.len - 1 → c.added = c.line.len - l.len

theorem rbLinebufCopyLine_counts (l : BufLine) (data : Bytes) :
    CopyCounts l data (rbLinebufCopyLine l data) := by
  cases ht : l.terminated with
  | true =>
    rw [rbLinebufCopyLine_terminated ht]
    exact ⟨rfl, fun h => h, fun _ => rfl, fun _ => (Int.sub_self _).symm⟩
  | false =>
    by_cases ho : (rbLinebufSkipCrlf data : Int) > bufDataSize - l.len - 1
    · rw [rbLinebufCopyLine_overflow ht ho]
      refine ⟨rfl, fun _ => by simp [bufDataSize], fun h => by simp [h] at ht, ?_⟩
      rintro (h | h | h)
      · simp [h] at ht
      · simp [h]
      · omega
    · have hn := yankCrlf_le (l.buf ++ data.take (rbLinebufSkipCrlf data))
        (rbLinebufSkipCrlf data)
      cases he : (l.buf ++ data.take (rbLinebufSkipCrlf data)).getLast?.any isCrlf with
      | true =>
        rw [rbLinebufCopyLine_complete ht ho he]
        exact ⟨rfl, fun h => by simp only; omega, fun h => by simp [h] at ht,
          fun _ => by simp only; omega⟩
      | false =>
        rw [rbLinebufCopyLine_open ht ho he]
        exact ⟨rfl, fun h => by simp only; omega, fun h => by simp [h] at ht,
          fun _ => by simp only; omega⟩

theorem rbLinebufCopyRaw_counts (l : BufLine) (data : Bytes) :
    CopyCounts l data (rbLinebufCopyRaw l data) := by
  cases ht : l.terminated with
  | true =>
    rw [rbLinebufCopyRaw_terminated ht]
    exact ⟨rfl, fun h => h, fun _ => rfl, fun _ => (Int.sub_self _).symm⟩
  | false =>
    by_cases ho : (rbLinebufSkipCrlf data : Int) > bufDataSize - l.len - 1
    · rw [rbLinebufCopyRaw_overflow ht ho]
      refine ⟨rfl, fun _ => by simp [bufDataSize], fun h => by simp [h] at ht, ?_⟩
      rintro (h | h | h)
      · simp [h] at ht
      · simp [h]
      · omega
    · rw [rbLinebufCopyRaw_fits ht ho]
      exact ⟨rfl, fun h => by simp only; omega, fun h => by simp [h] at ht,
        fun _ => by simp only; omega⟩

theorem copyFn_counts (raw : Bool) (l : BufLine) (data : Bytes) :
    CopyCounts l data (copyFn raw l data) := by
  cases raw with
  | false => exact rbLinebufCopyLine_counts l data
  | true => exact rbLinebufCopyRaw_counts l data

-- ============================================================================
-- The operations
-- ============================================================================

section Operations

variable [Fintype ι] {s : Sys ι}

/-- A copy into a line of `q`, when it does not recount what was there. -/
theorem CountInv.copyInto (h : CountInv s) {q : ι} {id : Nat} {data : Bytes} (raw : Bool)
    (hmem : id ∈ (s.head q).list)
    (hok : (s.line id).terminated = true ∨
      ((s.line id).len = 0 ∨ (rbLinebufSkipCrlf data : Int) ≤ bufDataSize - (s.line id).len - 1) ∧
        OnlyOn s q id) :
    CountInv (copyInto s q id data raw).1 := by
  have hc := copyFn_counts raw (s.line id) data
  have hadded : (copyFn raw (s.line id) data).added
      = (copyFn raw (s.line id) data).line.len - (s.line id).len := by
    apply hc.added_eq
    rcases hok with ht | ⟨hfit, -⟩
    · exact Or.inl ht
    · exact Or.inr hfit
  have hown : (copyFn raw (s.line id) data).line.len = (s.line id).len ∨ OnlyOn s q id := by
    rcases hok with ht | ⟨-, honly⟩
    · exact Or.inl (hc.of_terminated ht)
    · exact Or.inr honly
  have hgrow := h.grow hmem hown hc.refcount_eq (hc.len_nonneg ((h.queue q).len_nonneg id hmem))
  rw [← hadded] at hgrow
  exact hgrow

/-- Each round of the parse loop fills a fresh line. -/
theorem CountInv.parseLoop (q : ι) (raw : Bool) (fuel : Nat) :
    ∀ {s : Sys ι} {data : Bytes} {linecnt : Nat}, CountInv s →
      CountInv (parseLoop q raw fuel s data linecnt).1 := by
  induction fuel with
  | zero => intro s data linecnt h; exact h
  | succ fuel ih =>
    intro s data linecnt h
    rw [Linebuf.parseLoop]
    split
    · exact h
    · apply ih
      have hnew := h.newLine (q := q)
      have hline : (rbLinebufNewLine s q).1.line (rbLinebufNewLine s q).2
          = { BufLine.alloc with refcount := 1 } := by
        simp [rbLinebufNewLine]
      apply hnew.copyInto raw
      · simp [rbLinebufNewLine]
      · right
        refine ⟨Or.inl (by rw [hline]; rfl), ?_⟩
        intro q' hq'
        by_contra hne
        simp only [rbLinebufNewLine, Function.update_of_ne hne] at hq'
        exact absurd ((h.queue q').allocated _ hq') (Nat.lt_irrefl _)

theorem CountInv.parse (h : CountInv s) {q : ι} {data : Bytes} {raw : Bool}
    (hok : (Op.parse q data raw).Exact s) : CountInv (rbLinebufParse s q data raw).1 := by
  unfold rbLinebufParse
  cases hlast : (s.head q).list.getLast? with
  | none => exact CountInv.parseLoop q raw _ h
  | some id =>
    have hmem : id ∈ (s.head q).list := List.mem_of_getLast? hlast
    have hcopy : CountInv (Linebuf.copyInto s q id data raw).1 := by
      apply h.copyInto raw hmem
      cases ht : (s.line id).terminated with
      | true => exact Or.inl rfl
      | false =>
        obtain ⟨hfit, honly⟩ := hok id hlast ht
        exact Or.inr ⟨Or.inr hfit, honly⟩
    simp only
    split
    · exact hcopy
    · exact CountInv.parseLoop q raw _ hcopy

theorem CountInv.get (h : CountInv s) {q : ι} {buflen : Int} {isPartial raw : Bool} :
    CountInv (rbLinebufGet s q buflen isPartial raw).1 := by
  unfold rbLinebufGet
  split
  · exact h
  · simp only
    split
    · exact h.doneLine
    · exact h

theorem finishLine_len {text buf : Bytes} {len : Int} (h : finishLine text = some (buf, len)) :
    len = buf.length := by
  unfold finishLine at h
  split at h
  · obtain ⟨rfl, rfl⟩ := Prod.mk.inj (Option.some.inj h)
    simp only [List.length_append, List.length_take, List.length_cons, List.length_nil]
    omega
  · split at h
    · obtain ⟨rfl, rfl⟩ := Prod.mk.inj (Option.some.inj h)
      rfl
    · simp only at h
      split at h
      · cases h
      · obtain ⟨rfl, rfl⟩ := Prod.mk.inj (Option.some.inj h)
        simp only [List.length_append, List.length_cons, List.length_nil]
        omega

theorem CountInv.putText (h : CountInv s) {q : ι} {text : Bytes} {s' : Sys ι}
    (hput : putText s q text = some s') : CountInv s' := by
  obtain ⟨⟨buf, len⟩, hfin, rfl⟩ := Option.map_eq_some_iff.mp hput
  have hlen := finishLine_len hfin
  have hnew := h.newLine (q := q)
  have hline : (rbLinebufNewLine s q).1.line (rbLinebufNewLine s q).2
      = { BufLine.alloc with refcount := 1 } := by
    simp [rbLinebufNewLine]
  have honly : OnlyOn (rbLinebufNewLine s q).1 q (rbLinebufNewLine s q).2 := by
    intro q' hq'
    by_contra hne
    simp only [rbLinebufNewLine, Function.update_of_ne hne] at hq'
    exact absurd ((h.queue q').allocated _ hq') (Nat.lt_irrefl _)
  have hgrow := hnew.grow
    (l := { (rbLinebufNewLine s q).1.line (rbLinebufNewLine s q).2 with
            buf := buf, terminated := true, len := len })
    (by simp [rbLinebufNewLine]) (Or.inr honly) rfl (by simp only; omega)
  have hzero : ((rbLinebufNewLine s q).1.line (rbLinebufNewLine s q).2).len = 0 := by
    rw [hline]; rfl
  rw [hzero, Int.sub_zero] at hgrow
  exact hgrow

/-- The rounds of `rb_linebuf_attach`, over lines `q` does not have yet. -/
theorem CountInv.attachLines {q : ι} (ids : List Nat) :
    ∀ {s : Sys ι}, CountInv s → ids.Nodup →
      (∀ id ∈ ids, id < s.next ∧ id ∉ (s.head q).list ∧ 0 ≤ (s.line id).len) →
      CountInv (ids.foldl (Linebuf.attachLine q) s) := by
  induction ids with
  | nil => intro s h _ _; exact h
  | cons id rest ih =>
    intro s h hnodup hids
    obtain ⟨hid, hrest⟩ := List.nodup_cons.mp hnodup
    obtain ⟨halloc, hnew, hnonneg⟩ := hids id List.mem_cons_self
    rw [List.foldl_cons]
    apply ih (h.attachLine halloc hnew hnonneg) hrest
    intro i hi
    obtain ⟨hia, hin, hil⟩ := hids i (List.mem_cons_of_mem _ hi)
    have hne : i ≠ id := fun heq => hid (heq ▸ hi)
    refine ⟨hia, ?_, ?_⟩
    · simp [Linebuf.attachLine, hin, hne]
    · simpa [Linebuf.attachLine, hne] using hil

theorem CountInv.attach (h : CountInv s) {bufhead new : ι} {s' : Sys ι}
    (hok : (Op.attach bufhead new).Exact s) (hs : rbLinebufAttach s bufhead new = some s') :
    CountInv s' := by
  unfold rbLinebufAttach at hs
  split at hs
  · cases hs
  · obtain rfl := Option.some.inj hs
    have hnew := h.queue new
    exact CountInv.attachLines _ h hnew.nodup
      (fun id hid => ⟨hnew.allocated id hid, hok id hid, hnew.len_nonneg id hid⟩)

theorem CountInv.retireLoop (q : ι) (x : Nat) :
    ∀ {s : Sys ι} {xret : Int}, CountInv s → CountInv (retireLoop q x s xret) := by
  induction x with
  | zero => intro s xret h; exact h
  | succ x ih =>
    intro s xret h
    rw [Linebuf.retireLoop]
    split
    · exact h
    · simp only
      split
      · exact ih (h.doneLine.setWriteofs 0)
      · exact h.setWriteofs _

theorem CountInv.flush (h : CountInv s) {q : ι} (useWritev : Bool) {write : Bytes → Int} :
    CountInv (rbLinebufFlush s q useWritev write).sys := by
  cases hlist : (s.head q).list with
  | nil => rw [rbLinebufFlush_nil useWritev hlist]; exact h
  | cons id rest =>
    cases ht : (s.line id).terminated with
    | false => rw [rbLinebufFlush_open useWritev hlist ht]; exact h
    | true =>
      cases useWritev with
      | true =>
        rw [rbLinebufFlush_writev hlist ht]
        simp only
        split
        · exact h
        · exact CountInv.retireLoop q _ h
      | false =>
        rw [rbLinebufFlush_write hlist ht]
        simp only
        split
        · exact h
        · split
          · exact (h.setWriteofs 0).doneLine
          · exact h.setWriteofs _

/-- One call keeps the invariant when it meets its condition. -/
theorem CountInv.step (h : CountInv s) {op : Op ι} {s' : Sys ι} (hok : op.Exact s)
    (hs : op.step s = some s') : CountInv s' := by
  cases op with
  | parse q data raw => obtain rfl := Option.some.inj hs; exact h.parse hok
  | get q buflen isPartial raw => obtain rfl := Option.some.inj hs; exact h.get
  | put q expanded => exact h.putText hs
  | putbuf q buffer => exact h.putText hs
  | putmsg q pfx body => exact h.putText hs
  | attach bufhead new => exact h.attach hok hs
  | flush q useWritev taken => obtain rfl := Option.some.inj hs; exact h.flush useWritev

end Operations

-- ============================================================================
-- Whole runs
-- ============================================================================

/-- In every run whose calls meet their condition, the counters of all queues
    and lines are exact in every state reached. -/
theorem accounted_of_exact_run [Fintype ι] {s : Sys ι}
    (h : Reach (fun s op => Op.step s op) (fun s op => Op.Exact s op) Sys.start s) :
    Accounted s :=
  (h.invariant (P := CountInv) countInv_start fun _ _ _ hinv hok hs => hinv.step hok hs).accounted

/-- Two chunks of one line and a read of it: a run that meets the condition. -/
theorem accounted_after_two_chunks :
    let s₁ := (rbLinebufParse (Sys.start : Sys (Fin 2)) 0 [97, 98] false).1
    let s₂ := (rbLinebufParse s₁ 0 [99, 13, 10] false).1
    Accounted (rbLinebufGet s₂ 0 16384 false false).1 ∧
      (rbLinebufGet s₂ 0 16384 false false).2 = [97, 98, 99] := by
  refine ⟨accounted_of_exact_run ?_, by decide⟩
  refine Reach.next (a := Op.get 0 16384 false false) ?_ trivial rfl
  refine Reach.next (a := Op.parse 0 [99, 13, 10] false) ?_ ?_ rfl
  · refine Reach.next (a := Op.parse 0 [97, 98] false) Reach.init ?_ rfl
    intro id hlast
    simp [Sys.start, rbLinebufNewbuf] at hlast
  · intro id hlast _
    obtain rfl : 0 = id := Option.some.inj hlast
    refine ⟨by decide, ?_⟩
    intro q' hq'
    by_contra hne
    have hnil : ((rbLinebufParse (Sys.start : Sys (Fin 2)) 0 [97, 98] false).1.head q').list
        = [] := by
      rw [show q' = 1 by omega]; rfl
    rw [hnil] at hq'
    exact absurd hq' List.not_mem_nil

/-- Without the condition the counters drift: one byte, then 510 more of the
    same line.  The overflow counts the first byte twice. -/
theorem not_accounted_after_overflow :
    ¬ ∀ s : Sys Unit, Reach (fun s op => Op.step s op) anyStep Sys.start s → Accounted s := by
  intro hall
  let s₁ := (rbLinebufParse (Sys.start : Sys Unit) () [97] false).1
  have hreach : Reach (fun s op => Op.step s op) anyStep Sys.start
      (rbLinebufParse s₁ () (List.replicate 510 97) false).1 :=
    Reach.next (a := Op.parse () (List.replicate 510 97) false)
      (Reach.next (a := Op.parse () [97] false) Reach.init trivial rfl) trivial rfl
  have hlen := (hall _ hreach).len_eq ()
  revert hlen
  decide +kernel

end Bluebox.Linebuf
