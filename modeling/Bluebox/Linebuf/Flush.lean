/-
  Bluebox.Linebuf.Flush

  Output queues over whole runs: lines are appended (`rb_linebuf_put` and its
  siblings, `rb_linebuf_attach`) and flushed, with `rb_writev` or with
  `rb_write`, by a descriptor that takes any part of what it is offered.

  `Wire` is a system with two ghost logs per queue: the bytes appended and the
  bytes accepted.  `Intact` says that what was accepted, followed by what is
  still queued, is what was appended.  The head line counts from `writeofs`
  on, so the proof carries that offset through the retiring loop
  (`retireLoop_pending`).
-/
import Bluebox.Linebuf.Account

namespace Bluebox.Linebuf

open Bluebox.Lib

variable {ι : Type _} [DecidableEq ι]

-- ============================================================================
-- Runs with logs
-- ============================================================================

/-- A system of queues with the bytes appended to and accepted from each. -/
structure Wire (ι : Type _) where
  sys : Sys ι
  appended : ι → Bytes
  accepted : ι → Bytes

/-- No line, nothing appended, nothing accepted. -/
def Wire.start : Wire ι := ⟨Sys.start, fun _ => [], fun _ => []⟩

/-- The bytes still to be written to a queue's descriptor: the head line from
    `writeofs` on, then the other lines. -/
def Sys.pending (s : Sys ι) (q : ι) : Bytes :=
  pendingBytes s (s.head q).writeofs (s.head q).list

/-- The lines a call appends, and to which queue. -/
def Op.appends (s : Sys ι) : Op ι → Option (ι × Bytes)
  | .put q expanded => (finishLine (expanded.getD [])).map fun l => (q, l.1)
  | .putbuf q buffer => (finishLine (buffer.getD [])).map fun l => (q, l.1)
  | .putmsg q pfx body =>
    (finishLine (if (pfx.getD []).length > bufDataSize then pfx.getD []
      else pfx.getD [] ++ body.getD [])).map fun l => (q, l.1)
  | .attach bufhead new => some (bufhead, (s.head new).list.flatMap fun id => (s.line id).buf)
  | _ => none

/-- The bytes a call hands to a descriptor, and of which queue. -/
def Op.sends (s : Sys ι) : Op ι → Option (ι × Bytes)
  | .flush q useWritev taken => some (q, (rbLinebufFlush s q useWritev (takesUpTo taken)).accepted)
  | _ => none

/-- Add a logged entry. -/
def logged (log : ι → Bytes) : Option (ι × Bytes) → ι → Bytes
  | none => log
  | some (q, bytes) => Function.update log q (log q ++ bytes)

/-- The calls made on an output queue. -/
def Op.isOutput : Op ι → Bool
  | .parse .. => false
  | .get .. => false
  | _ => true

/-- One call with its log entries. -/
def Wire.step (w : Wire ι) (op : Op ι) : Option (Wire ι) :=
  (op.step w.sys).map fun s' =>
    { sys := s', appended := logged w.appended (op.appends w.sys),
      accepted := logged w.accepted (op.sends w.sys) }

/-- Nothing is lost, repeated or reordered. -/
def Wire.Intact (w : Wire ι) : Prop :=
  ∀ q, w.accepted q ++ w.sys.pending q = w.appended q

-- ============================================================================
-- The invariant of an output queue
-- ============================================================================

/-- The lines of an output queue are allocated, complete and not empty, and the
    write offset lies inside the head line. -/
structure OutOk (line : Nat → BufLine) (next : Nat) (h : BufHead) : Prop where
  allocated : ∀ id ∈ h.list, id < next
  terminated : ∀ id ∈ h.list, (line id).terminated = true
  len_eq : ∀ id ∈ h.list, (line id).len = (line id).buf.length
  len_pos : ∀ id ∈ h.list, 0 < (line id).len
  ofs_nonneg : 0 ≤ h.writeofs
  ofs_nil : h.list = [] → h.writeofs = 0
  ofs_lt : ∀ id rest, h.list = id :: rest → h.writeofs < (line id).len

/-- Lines agree on everything but their refcount. -/
def SameText (l l' : BufLine) : Prop :=
  l'.buf = l.buf ∧ l'.terminated = l.terminated ∧ l'.len = l.len

theorem SameText.refl (l : BufLine) : SameText l l := ⟨rfl, rfl, rfl⟩

theorem SameText.trans {l l' l'' : BufLine} (h : SameText l l') (h' : SameText l' l'') :
    SameText l l'' :=
  ⟨h'.1.trans h.1, h'.2.1.trans h.2.1, h'.2.2.trans h.2.2⟩

theorem OutOk.frame {line line' : Nat → BufLine} {next next' : Nat} {h : BufHead}
    (hq : OutOk line next h) (hsame : ∀ id ∈ h.list, SameText (line id) (line' id))
    (hnext : next ≤ next') : OutOk line' next' h where
  allocated id hid := Nat.lt_of_lt_of_le (hq.allocated id hid) hnext
  terminated id hid := by rw [(hsame id hid).2.1]; exact hq.terminated id hid
  len_eq id hid := by
    rw [(hsame id hid).2.2, (hsame id hid).1]
    exact hq.len_eq id hid
  len_pos id hid := by rw [(hsame id hid).2.2]; exact hq.len_pos id hid
  ofs_nonneg := hq.ofs_nonneg
  ofs_nil := hq.ofs_nil
  ofs_lt id rest hlist := by
    have hid : id ∈ h.list := by rw [hlist]; exact List.mem_cons_self
    rw [(hsame id hid).2.2]
    exact hq.ofs_lt id rest hlist

omit [DecidableEq ι] in
theorem pendingBytes_congr {s t : Sys ι} {list : List Nat} (ofs : Int)
    (hsame : ∀ id ∈ list, (t.line id).buf = (s.line id).buf) :
    pendingBytes t ofs list = pendingBytes s ofs list := by
  cases list with
  | nil => rfl
  | cons id rest =>
    have hrest : (rest.flatMap fun i => (t.line i).buf) = rest.flatMap fun i => (s.line i).buf := by
      simp only [List.flatMap_def]
      rw [List.map_congr_left fun i hi => hsame i (List.mem_cons_of_mem _ hi)]
    simp only [pendingBytes, hsame id List.mem_cons_self, hrest]

omit [DecidableEq ι] in
/-- From offset zero, all bytes of the lines are pending. -/
theorem pendingBytes_zero (s : Sys ι) (list : List Nat) :
    pendingBytes s 0 list = list.flatMap fun id => (s.line id).buf := by
  cases list with
  | nil => rfl
  | cons id rest => simp [pendingBytes]

omit [DecidableEq ι] in
theorem pendingBytes_append (s : Sys ι) (ofs : Int) {xs : List Nat} (ys : List Nat)
    (hne : xs ≠ []) :
    pendingBytes s ofs (xs ++ ys)
      = pendingBytes s ofs xs ++ ys.flatMap fun id => (s.line id).buf := by
  cases xs with
  | nil => exact absurd rfl hne
  | cons id rest => simp [pendingBytes]

-- ============================================================================
-- Frame rules: what a call does to the other queues
-- ============================================================================

/-- `t` differs from `s` only in queue `q`, in refcounts and in new lines. -/
structure OnlyQueue (s t : Sys ι) (q : ι) : Prop where
  head_eq : ∀ q', q' ≠ q → t.head q' = s.head q'
  line_same : ∀ id < s.next, SameText (s.line id) (t.line id)
  next_le : s.next ≤ t.next

omit [DecidableEq ι] in
theorem OnlyQueue.refl (s : Sys ι) (q : ι) : OnlyQueue s s q :=
  ⟨fun _ _ => rfl, fun _ _ => SameText.refl _, Nat.le_refl _⟩

omit [DecidableEq ι] in
theorem OnlyQueue.trans {s t u : Sys ι} {q : ι} (h : OnlyQueue s t q) (h' : OnlyQueue t u q) :
    OnlyQueue s u q where
  head_eq q' hq := (h'.head_eq q' hq).trans (h.head_eq q' hq)
  line_same id hid :=
    (h.line_same id hid).trans (h'.line_same id (Nat.lt_of_lt_of_le hid h.next_le))
  next_le := Nat.le_trans h.next_le h'.next_le

omit [DecidableEq ι] in
/-- The pending bytes of the other queues stay as they are. -/
theorem OnlyQueue.pending_eq {s t : Sys ι} {q q' : ι} (h : OnlyQueue s t q) (hq : q' ≠ q)
    (hok : OutOk s.line s.next (s.head q')) : t.pending q' = s.pending q' := by
  unfold Sys.pending
  rw [h.head_eq q' hq]
  exact pendingBytes_congr _ fun id hid => (h.line_same id (hok.allocated id hid)).1

theorem onlyQueue_setHead (s : Sys ι) (q : ι) (h : BufHead) : OnlyQueue s (s.setHead q h) q :=
  ⟨fun q' hq => by simp [hq], fun _ _ => SameText.refl _, Nat.le_refl _⟩

theorem onlyQueue_doneLine (s : Sys ι) (q : ι) : OnlyQueue s (rbLinebufDoneLine s q) q := by
  cases hlist : (s.head q).list with
  | nil => rw [rbLinebufDoneLine_nil hlist]; exact OnlyQueue.refl s q
  | cons id rest =>
    rw [rbLinebufDoneLine_cons hlist]
    refine ⟨fun q' hq => by simp [hq], fun i _ => ?_, Nat.le_refl _⟩
    by_cases hi : i = id
    · subst hi; simp [SameText]
    · simp [SameText, hi]

theorem onlyQueue_attachLine (s : Sys ι) (q : ι) (id : Nat) :
    OnlyQueue s (attachLine q s id) q := by
  refine ⟨fun q' hq => by simp [attachLine, hq], fun i _ => ?_, Nat.le_refl _⟩
  by_cases hi : i = id
  · subst hi; simp [attachLine, SameText]
  · simp [attachLine, SameText, hi]

-- ============================================================================
-- Appending
-- ============================================================================

omit [DecidableEq ι] in
/-- Lines that join the tail of an output queue are pending after the others. -/
theorem outOk_append {s t : Sys ι} {q : ι} (ids : List Nat) (hok : OutOk s.line s.next (s.head q))
    (honly : OnlyQueue s t q) (hlist : (t.head q).list = (s.head q).list ++ ids)
    (hofs : (t.head q).writeofs = (s.head q).writeofs)
    (hids : ∀ id ∈ ids, id < t.next ∧ (t.line id).terminated = true ∧
      (t.line id).len = (t.line id).buf.length ∧ 0 < (t.line id).len) :
    OutOk t.line t.next (t.head q) ∧
      t.pending q = s.pending q ++ ids.flatMap fun id => (t.line id).buf := by
  have hold : OutOk t.line t.next (s.head q) :=
    hok.frame (fun id hid => honly.line_same id (hok.allocated id hid)) honly.next_le
  have hmem : ∀ id ∈ (t.head q).list, id ∈ (s.head q).list ∨ id ∈ ids := by
    intro id hid
    rw [hlist] at hid
    exact List.mem_append.mp hid
  have hsame : pendingBytes t (s.head q).writeofs (s.head q).list = s.pending q :=
    pendingBytes_congr _ fun id hid => (honly.line_same id (hok.allocated id hid)).1
  refine ⟨⟨?_, ?_, ?_, ?_, ?_, ?_, ?_⟩, ?_⟩
  · intro id hid
    rcases hmem id hid with h | h
    · exact hold.allocated id h
    · exact (hids id h).1
  · intro id hid
    rcases hmem id hid with h | h
    · exact hold.terminated id h
    · exact (hids id h).2.1
  · intro id hid
    rcases hmem id hid with h | h
    · exact hold.len_eq id h
    · exact (hids id h).2.2.1
  · intro id hid
    rcases hmem id hid with h | h
    · exact hold.len_pos id h
    · exact (hids id h).2.2.2
  · rw [hofs]; exact hok.ofs_nonneg
  · intro hnil
    rw [hlist] at hnil
    rw [hofs]
    exact hok.ofs_nil (List.append_eq_nil_iff.mp hnil).1
  · intro id rest hcons
    rw [hofs]
    rw [hlist] at hcons
    -- the head line is an old one, or the queue was empty and the offset is zero
    cases hs : (s.head q).list with
    | nil =>
      rw [hok.ofs_nil hs]
      rw [hs, List.nil_append] at hcons
      exact (hids id (by rw [hcons]; exact List.mem_cons_self)).2.2.2
    | cons id' rest' =>
      rw [hs] at hcons
      obtain ⟨rfl, -⟩ := List.cons.inj hcons
      exact hold.ofs_lt _ _ hs
  · rw [Sys.pending, hlist, hofs, ← hsame]
    cases hs : (s.head q).list with
    | nil =>
      rw [hok.ofs_nil hs, List.nil_append, pendingBytes_zero]
      rfl
    | cons id' rest' => exact pendingBytes_append t _ ids (List.cons_ne_nil _ _)

/-- What the put functions write ends in CR LF. -/
theorem finishLine_crlf {text buf : Bytes} {len : Int} (h : finishLine text = some (buf, len)) :
    ∃ kept, buf = kept ++ [13, 10] := by
  unfold finishLine at h
  split at h
  · obtain ⟨rfl, -⟩ := Prod.mk.inj (Option.some.inj h)
    exact ⟨_, rfl⟩
  · split at h
    · obtain ⟨rfl, -⟩ := Prod.mk.inj (Option.some.inj h)
      exact ⟨[], rfl⟩
    · simp only at h
      split at h
      · cases h
      · obtain ⟨rfl, -⟩ := Prod.mk.inj (Option.some.inj h)
        exact ⟨_, rfl⟩

/-- A put appends one line. -/
theorem putText_spec {s t : Sys ι} {q : ι} {text : Bytes} (h : putText s q text = some t)
    (hok : OutOk s.line s.next (s.head q)) :
    ∃ buf len, finishLine text = some (buf, len) ∧ OnlyQueue s t q ∧
      OutOk t.line t.next (t.head q) ∧ t.pending q = s.pending q ++ buf := by
  obtain ⟨⟨buf, len⟩, hfin, rfl⟩ := Option.map_eq_some_iff.mp h
  have hlen := finishLine_len hfin
  have hpos : 0 < len := by
    obtain ⟨kept, rfl⟩ := finishLine_crlf hfin
    rw [hlen, List.length_append, List.length_cons]
    omega
  refine ⟨buf, len, hfin, ?_⟩
  simp only
  generalize ht : ((rbLinebufNewLine s q).1.setLine _ _).setHead q _ = t
  have honly : OnlyQueue s t q := by
    subst ht
    refine ⟨fun q' hq => by simp [rbLinebufNewLine, hq], fun id hid => ?_, Nat.le_succ _⟩
    simp [SameText, rbLinebufNewLine, Nat.ne_of_lt hid]
  have hnew : t.line s.next = { BufLine.alloc with
      refcount := 1, buf := buf, terminated := true, len := len } := by
    subst ht
    simp [rbLinebufNewLine]
  have happ := outOk_append [s.next] hok honly
    (by subst ht; simp [rbLinebufNewLine]) (by subst ht; simp [rbLinebufNewLine])
    (fun id hid => by
      obtain rfl := List.mem_singleton.mp hid
      rw [hnew]
      exact ⟨by subst ht; exact Nat.lt_succ_self _, rfl, hlen, hpos⟩)
  refine ⟨honly, happ.1, ?_⟩
  rw [happ.2, List.flatMap_singleton, hnew]

/-- The rounds of `rb_linebuf_attach` only move the tail of the queue. -/
theorem attachLines_spec (q : ι) (ids : List Nat) : ∀ s : Sys ι,
    OnlyQueue s (ids.foldl (attachLine q) s) q ∧
      ((ids.foldl (attachLine q) s).head q).list = (s.head q).list ++ ids ∧
      ((ids.foldl (attachLine q) s).head q).writeofs = (s.head q).writeofs ∧
      (ids.foldl (attachLine q) s).next = s.next := by
  induction ids with
  | nil => intro s; exact ⟨OnlyQueue.refl s q, (List.append_nil _).symm, rfl, rfl⟩
  | cons id rest ih =>
    intro s
    obtain ⟨honly, hlist, hofs, hnext⟩ := ih (attachLine q s id)
    rw [List.foldl_cons]
    refine ⟨(onlyQueue_attachLine s q id).trans honly, ?_, ?_, hnext⟩
    · rw [hlist]
      simp [attachLine]
    · rw [hofs]
      simp [attachLine]

/-- An attach appends the lines of the other queue. -/
theorem rbLinebufAttach_spec {s t : Sys ι} {bufhead new : ι}
    (h : rbLinebufAttach s bufhead new = some t)
    (hok : ∀ q, OutOk s.line s.next (s.head q)) :
    OnlyQueue s t bufhead ∧ OutOk t.line t.next (t.head bufhead) ∧
      t.pending bufhead
        = s.pending bufhead ++ (s.head new).list.flatMap fun id => (s.line id).buf := by
  unfold rbLinebufAttach at h
  split at h
  · cases h
  · obtain rfl := Option.some.inj h
    obtain ⟨honly, hlist, hofs, hnext⟩ := attachLines_spec bufhead (s.head new).list s
    have hsame : ∀ id ∈ (s.head new).list, SameText (s.line id)
        (((s.head new).list.foldl (attachLine bufhead) s).line id) :=
      fun id hid => honly.line_same id ((hok new).allocated id hid)
    have hnew : OutOk _ _ (s.head new) := (hok new).frame hsame (Nat.le_of_eq hnext.symm)
    have happ := outOk_append _ (hok bufhead) honly hlist hofs fun id hid =>
      ⟨hnew.allocated id hid, hnew.terminated id hid, hnew.len_eq id hid, hnew.len_pos id hid⟩
    refine ⟨honly, happ.1, ?_⟩
    rw [happ.2, List.flatMap_def, List.flatMap_def,
      List.map_congr_left fun id hid => (hsame id hid).1]

-- ============================================================================
-- Flushing
-- ============================================================================

section Flush

variable {s : Sys ι} {q : ι} {id : Nat} {rest : List Nat}

omit [DecidableEq ι] in
theorem OutOk.head_length (hok : OutOk s.line s.next (s.head q))
    (hlist : (s.head q).list = id :: rest) :
    (((s.line id).buf.drop (s.head q).writeofs.toNat).length : Int)
      = (s.line id).len - (s.head q).writeofs := by
  have hlen := hok.len_eq id (by rw [hlist]; exact List.mem_cons_self)
  have hlt := hok.ofs_lt id rest hlist
  have hge := hok.ofs_nonneg
  rw [List.length_drop]
  omega

/-- Accepted bytes that end inside the head line move the offset. -/
theorem outOk_advance (hok : OutOk s.line s.next (s.head q))
    (hlist : (s.head q).list = id :: rest) {xret : Int} (hxret : 0 ≤ xret)
    (hlt : xret < (s.line id).len - (s.head q).writeofs) :
    let t := s.setHead q { s.head q with writeofs := (s.head q).writeofs + xret }
    OutOk t.line t.next (t.head q) ∧ t.pending q = (s.pending q).drop xret.toNat := by
  have hge := hok.ofs_nonneg
  have hhead := hok.head_length hlist
  refine ⟨?_, ?_⟩
  · simp only [Sys.setHead_line, Sys.setHead_head, Function.update_self, Sys.setHead_next]
    refine ⟨hok.allocated, hok.terminated, hok.len_eq, hok.len_pos, ?_, ?_, ?_⟩
    · simp only; omega
    · intro hnil
      simp only [hlist] at hnil
      cases hnil
    · intro id' rest' hcons
      simp only [hlist] at hcons
      obtain ⟨rfl, -⟩ := List.cons.inj hcons
      simp only; omega
  · simp only [Sys.pending, Sys.setHead_head, Function.update_self, hlist, pendingBytes,
      Sys.setHead_line]
    rw [List.drop_append_of_le_length (by omega), List.drop_drop]
    congr 2
    omega

/-- The queue after its head line was accepted to the end. -/
def retireHead (s : Sys ι) (q : ι) : Sys ι :=
  (rbLinebufDoneLine s q).setHead q { (rbLinebufDoneLine s q).head q with writeofs := 0 }

theorem onlyQueue_retireHead (s : Sys ι) (q : ι) : OnlyQueue s (retireHead s q) q :=
  (onlyQueue_doneLine s q).trans (onlyQueue_setHead _ q _)

theorem retireHead_writeofs (s : Sys ι) (q : ι) : ((retireHead s q).head q).writeofs = 0 := by
  simp [retireHead]

theorem retireHead_list (hlist : (s.head q).list = id :: rest) :
    ((retireHead s q).head q).list = rest := by
  simp [retireHead, rbLinebufDoneLine_cons hlist]

/-- The single-write path resets the offset before it takes the line off. -/
theorem retireHead_eq (hlist : (s.head q).list = id :: rest) :
    rbLinebufDoneLine (s.setHead q { s.head q with writeofs := 0 }) q = retireHead s q := by
  have hlist' : ((s.setHead q { s.head q with writeofs := 0 }).head q).list = id :: rest := by
    simpa using hlist
  rw [retireHead, rbLinebufDoneLine_cons hlist, rbLinebufDoneLine_cons hlist']
  simp [Sys.setHead, Sys.setLine]

/-- The lines after a retired head line keep their bytes. -/
theorem retireHead_buf (hok : OutOk s.line s.next (s.head q))
    (hlist : (s.head q).list = id :: rest) :
    ∀ i ∈ rest, SameText (s.line i) ((retireHead s q).line i) := fun i hi =>
  (onlyQueue_retireHead s q).line_same i
    (hok.allocated i (by rw [hlist]; exact List.mem_cons_of_mem _ hi))

/-- A head line accepted to its end leaves, and the next one counts from zero. -/
theorem outOk_retire (hok : OutOk s.line s.next (s.head q))
    (hlist : (s.head q).list = id :: rest) :
    OutOk (retireHead s q).line (retireHead s q).next ((retireHead s q).head q) ∧
      (retireHead s q).pending q = rest.flatMap fun i => (s.line i).buf := by
  have hlist' := retireHead_list hlist
  have hsame := retireHead_buf hok hlist
  have hrest : ∀ i ∈ ((retireHead s q).head q).list, i ∈ (s.head q).list := by
    intro i hi
    rw [hlist'] at hi
    rw [hlist]
    exact List.mem_cons_of_mem _ hi
  have hframe : OutOk s.line s.next ((retireHead s q).head q) := by
    have hofs := retireHead_writeofs s q
    refine ⟨fun i hi => hok.allocated i (hrest i hi), fun i hi => hok.terminated i (hrest i hi),
      fun i hi => hok.len_eq i (hrest i hi), fun i hi => hok.len_pos i (hrest i hi),
      le_of_eq hofs.symm, fun _ => hofs, ?_⟩
    intro i rest' hcons
    rw [hofs]
    exact hok.len_pos i (hrest i (by rw [hcons]; exact List.mem_cons_self))
  refine ⟨hframe.frame (fun i hi => hsame i (hlist' ▸ hi)) (onlyQueue_retireHead s q).next_le, ?_⟩
  rw [Sys.pending, retireHead_writeofs, hlist', pendingBytes_zero, List.flatMap_def,
    List.flatMap_def, List.map_congr_left fun i hi => (hsame i hi).1]

/-- All of the head line, and a part of what follows it. -/
theorem pending_drop_past_head (hok : OutOk s.line s.next (s.head q))
    (hlist : (s.head q).list = id :: rest) {xret : Int}
    (hge : xret ≥ (s.line id).len - (s.head q).writeofs) :
    (s.pending q).drop xret.toNat
      = ((retireHead s q).pending q).drop (xret - ((s.line id).len - (s.head q).writeofs)).toNat := by
  have hhead := hok.head_length hlist
  rw [(outOk_retire hok hlist).2, Sys.pending, hlist, pendingBytes,
    show xret.toNat = ((s.line id).buf.drop (s.head q).writeofs.toNat).length
      + (xret - ((s.line id).len - (s.head q).writeofs)).toNat by omega,
    List.drop_append, List.drop_eq_nil_of_le (Nat.le_add_right _ _), List.nil_append,
    Nat.add_sub_cancel_left]

/-- The retiring loop drops the accepted bytes from what is pending.  The
    induction is on the number of offered lines; the invariant is that what is
    left of `xret` lies within the lines that are left. -/
theorem retireLoop_pending (q : ι) (x : Nat) : ∀ {s : Sys ι} {xret : Int},
    OutOk s.line s.next (s.head q) → 0 ≤ xret →
    xret ≤ (pendingBytes s (s.head q).writeofs ((s.head q).list.take x)).length →
    OnlyQueue s (retireLoop q x s xret) q ∧
      OutOk (retireLoop q x s xret).line (retireLoop q x s xret).next
        ((retireLoop q x s xret).head q) ∧
      (retireLoop q x s xret).pending q = (s.pending q).drop xret.toNat := by
  induction x with
  | zero =>
    intro s xret hok hge hle
    rw [List.take_zero] at hle
    obtain rfl : xret = 0 := le_antisymm hle hge
    exact ⟨OnlyQueue.refl s q, hok, rfl⟩
  | succ x ih =>
    intro s xret hok hge hle
    cases hlist : (s.head q).list with
    | nil =>
      rw [retireLoop_nil _ _ hlist]
      rw [hlist, List.take_nil] at hle
      obtain rfl : xret = 0 := le_antisymm hle hge
      exact ⟨OnlyQueue.refl s q, hok, rfl⟩
    | cons id rest =>
      have hhead := hok.head_length hlist
      rw [retireLoop_cons _ _ hlist]
      by_cases hdone : xret ≥ (s.line id).len - (s.head q).writeofs
      · rw [if_pos hdone]
        have hretire := outOk_retire hok hlist
        rw [hlist, List.take_succ_cons, pendingBytes, List.length_append] at hle
        have hleft : xret - ((s.line id).len - (s.head q).writeofs) ≤
            (pendingBytes (retireHead s q) ((retireHead s q).head q).writeofs
              (((retireHead s q).head q).list.take x)).length := by
          rw [retireHead_writeofs, retireHead_list hlist, pendingBytes_zero, List.flatMap_def,
            List.map_congr_left fun i hi =>
              (retireHead_buf hok hlist i (List.mem_of_mem_take hi)).1, ← List.flatMap_def]
          omega
        have hrest := ih hretire.1 (by omega) hleft
        exact ⟨(onlyQueue_retireHead s q).trans hrest.1, hrest.2.1,
          hrest.2.2.trans (pending_drop_past_head hok hlist hdone).symm⟩
      · rw [if_neg hdone]
        obtain ⟨hok', hpend'⟩ := outOk_advance hok hlist hge (by omega)
        exact ⟨onlyQueue_setHead s q _, hok', hpend'⟩

omit [DecidableEq ι] in
/-- With all lines complete, the vector is a front part of the queue. -/
theorem flushVec_eq_take {list : List Nat} (h : ∀ i ∈ list, (s.line i).terminated = true) :
    flushVec s list = list.take rbUioMaxiov := by
  cases list with
  | nil => rfl
  | cons id rest =>
    have hall : (rest.takeWhile fun i => (s.line i).terminated) = rest :=
      List.takeWhile_eq_self_iff.mpr fun i hi => h i (List.mem_cons_of_mem _ hi)
    rw [flushVec, hall]
    rfl

omit [DecidableEq ι] in
theorem pendingBytes_take (s : Sys ι) (ofs : Int) (list : List Nat) (n : Nat) :
    pendingBytes s ofs (list.take n) <+: pendingBytes s ofs list := by
  cases n with
  | zero => exact List.nil_prefix
  | succ n =>
    cases list with
    | nil => exact List.nil_prefix
    | cons id rest =>
      have happ := pendingBytes_append s ofs ((id :: rest).drop (n + 1))
        (show (id :: rest).take (n + 1) ≠ [] from List.cons_ne_nil _ _)
      rw [List.take_append_drop] at happ
      exact ⟨_, happ.symm⟩

/-- A flush moves bytes from the front of what is pending to the descriptor. -/
theorem rbLinebufFlush_spec (useWritev : Bool) {write : Bytes → Int}
    (hwrite : ∀ offered, write offered ≤ offered.length)
    (hok : OutOk s.line s.next (s.head q)) :
    let f := rbLinebufFlush s q useWritev write
    OnlyQueue s f.sys q ∧ OutOk f.sys.line f.sys.next (f.sys.head q) ∧
      f.accepted ++ f.sys.pending q = s.pending q := by
  have hsplit : ∀ {xs ys : Bytes} {n : Nat}, xs <+: ys → n ≤ xs.length →
      xs.take n ++ ys.drop n = ys := by
    rintro xs _ n ⟨zs, rfl⟩ hn
    rw [← @List.take_append_of_le_length _ xs zs n hn, List.take_append_drop]
  cases hlist : (s.head q).list with
  | nil =>
    rw [rbLinebufFlush_nil useWritev hlist]
    exact ⟨OnlyQueue.refl s q, hok, rfl⟩
  | cons id rest =>
    have ht := hok.terminated id (by rw [hlist]; exact List.mem_cons_self)
    cases useWritev with
    | true =>
      rw [rbLinebufFlush_writev hlist ht]
      simp only
      have hvec : flushVec s (id :: rest) = (id :: rest).take rbUioMaxiov :=
        flushVec_eq_take fun i hi => hok.terminated i (hlist ▸ hi)
      have hpre := pendingBytes_take s (s.head q).writeofs (id :: rest) rbUioMaxiov
      rw [← hvec] at hpre
      have hle := hwrite (pendingBytes s (s.head q).writeofs (flushVec s (id :: rest)))
      by_cases hfail : write (pendingBytes s (s.head q).writeofs (flushVec s (id :: rest))) ≤ 0
      · rw [if_pos hfail]
        exact ⟨OnlyQueue.refl s q, hok, rfl⟩
      · rw [if_neg hfail]
        have htake : (s.head q).list.take (flushVec s (id :: rest)).length
            = flushVec s (id :: rest) := by
          rw [hlist, hvec, List.length_take, List.take_eq_take_iff]
          simp
        have hret := retireLoop_pending q (flushVec s (id :: rest)).length hok
          (Int.le_of_lt (Int.not_le.mp hfail)) (by rw [htake]; exact hle)
        refine ⟨hret.1, hret.2.1, ?_⟩
        rw [hret.2.2]
        refine hsplit ?_ (by omega)
        rw [Sys.pending, hlist]
        exact hpre
    | false =>
      rw [rbLinebufFlush_write hlist ht]
      simp only
      have hhead := hok.head_length hlist
      have hle := hwrite ((s.line id).buf.drop (s.head q).writeofs.toNat)
      generalize write ((s.line id).buf.drop (s.head q).writeofs.toNat) = retval at hle
      have hpend : s.pending q = (s.line id).buf.drop (s.head q).writeofs.toNat
          ++ rest.flatMap fun i => (s.line i).buf := by
        rw [Sys.pending, hlist, pendingBytes]
      by_cases hfail : retval ≤ 0
      · rw [if_pos hfail]
        exact ⟨OnlyQueue.refl s q, hok, rfl⟩
      · rw [if_neg hfail]
        by_cases hend : (s.head q).writeofs + retval = (s.line id).len
        · rw [if_pos hend, retireHead_eq hlist]
          have hretire := outOk_retire hok hlist
          refine ⟨onlyQueue_retireHead s q, hretire.1, ?_⟩
          rw [hretire.2, hpend, List.take_of_length_le (by omega)]
        · rw [if_neg hend]
          obtain ⟨hok', hpend'⟩ := outOk_advance hok hlist
            (Int.le_of_lt (Int.not_le.mp hfail)) (by omega)
          refine ⟨onlyQueue_setHead s q _, hok', ?_⟩
          rw [hpend']
          exact hsplit (by rw [hpend]; exact List.prefix_append _ _) (by omega)

end Flush

-- ============================================================================
-- Whole runs
-- ============================================================================

omit [DecidableEq ι] in
theorem outOk_start (q : ι) :
    OutOk (Sys.start : Sys ι).line (Sys.start : Sys ι).next ((Sys.start : Sys ι).head q) := by
  refine ⟨?_, ?_, ?_, ?_, le_refl _, fun _ => rfl, ?_⟩
  all_goals simp [Sys.start, rbLinebufNewbuf]

/-- What one call on an output queue `q` does: bytes `xs` join the end of what
    is pending and bytes `ys` leave its front. -/
structure Moves (s t : Sys ι) (q : ι) (xs ys : Bytes) : Prop where
  only : OnlyQueue s t q
  ok : OutOk t.line t.next (t.head q)
  pending_eq : ys ++ t.pending q = s.pending q ++ xs

/-- Every call on an output queue is such a move, and logs it. -/
theorem Op.step_moves {s t : Sys ι} {op : Op ι} (hout : op.isOutput = true)
    (hok : ∀ q, OutOk s.line s.next (s.head q)) (hs : op.step s = some t) :
    ∃ q xs ys, Moves s t q xs ys ∧ (∀ log, logged log (op.appends s) q = log q ++ xs) ∧
      (∀ log, logged log (op.sends s) q = log q ++ ys) ∧
      ∀ q', q' ≠ q → ∀ log, logged log (op.appends s) q' = log q' ∧
        logged log (op.sends s) q' = log q' := by
  have hput : ∀ q text, putText s q text = some t →
      (op.appends s = (finishLine text).map fun l => (q, l.1)) → op.sends s = none →
      ∃ q xs ys, Moves s t q xs ys ∧ (∀ log, logged log (op.appends s) q = log q ++ xs) ∧
        (∀ log, logged log (op.sends s) q = log q ++ ys) ∧
        ∀ q', q' ≠ q → ∀ log, logged log (op.appends s) q' = log q' ∧
          logged log (op.sends s) q' = log q' := by
    intro q text hput happ hsend
    obtain ⟨buf, len, hfin, honly, hok', hpend⟩ := putText_spec hput (hok q)
    rw [happ, hsend, hfin]
    exact ⟨q, buf, [], ⟨honly, hok', hpend⟩, fun log => by simp [logged],
      fun log => by simp [logged], fun q' hq log => by simp [logged, hq]⟩
  cases op with
  | parse q data raw => cases hout
  | get q buflen isPartial raw => cases hout
  | put q expanded => exact hput q _ hs rfl rfl
  | putbuf q buffer => exact hput q _ hs rfl rfl
  | putmsg q pfx body => exact hput q _ hs rfl rfl
  | attach bufhead new =>
    obtain ⟨honly, hok', hpend⟩ := rbLinebufAttach_spec hs hok
    exact ⟨bufhead, _, [], ⟨honly, hok', hpend⟩, fun log => by simp [logged, Op.appends],
      fun log => by simp [logged, Op.sends],
      fun q' hq log => by simp [logged, Op.appends, Op.sends, hq]⟩
  | flush q useWritev taken =>
    obtain rfl := Option.some.inj hs
    have htakes : ∀ offered, takesUpTo taken offered ≤ offered.length :=
      fun _ => min_le_right _ _
    obtain ⟨honly, hok', hpend⟩ := rbLinebufFlush_spec useWritev htakes (hok q)
    exact ⟨q, [], _, ⟨honly, hok', hpend.trans (List.append_nil _).symm⟩,
      fun log => by simp [logged, Op.appends], fun log => by simp [logged, Op.sends],
      fun q' hq log => by simp [logged, Op.appends, Op.sends, hq]⟩

/-- The inductive invariant: sound output queues and intact logs. -/
def Wire.Inv (w : Wire ι) : Prop :=
  (∀ q, OutOk w.sys.line w.sys.next (w.sys.head q)) ∧ w.Intact

theorem Wire.Inv.step {w w' : Wire ι} {op : Op ι} (h : w.Inv) (hout : op.isOutput = true)
    (hs : w.step op = some w') : w'.Inv := by
  obtain ⟨t, ht, rfl⟩ := Option.map_eq_some_iff.mp hs
  obtain ⟨q, xs, ys, hmove, happ, hsend, hother⟩ := Op.step_moves hout h.1 ht
  refine ⟨fun q' => ?_, fun q' => ?_⟩
  · by_cases hq : q' = q
    · subst hq; exact hmove.ok
    · have hframe := (h.1 q').frame
        (fun id hid => hmove.only.line_same id ((h.1 q').allocated id hid)) hmove.only.next_le
      rw [← hmove.only.head_eq q' hq] at hframe
      exact hframe
  · by_cases hq : q' = q
    · subst hq
      simp only [happ, hsend]
      rw [List.append_assoc, hmove.pending_eq, ← List.append_assoc, h.2 q']
    · simp only [(hother q' hq _).1, (hother q' hq _).2]
      rw [hmove.only.pending_eq hq (h.1 q')]
      exact h.2 q'

/-- In every run of appends and flushes, on every queue, the accepted bytes
    followed by the bytes still queued are the bytes appended, in order. -/
theorem intact_of_output_run {w : Wire ι}
    (h : Reach Wire.step (fun _ op => Op.isOutput op = true) Wire.start w) : w.Intact :=
  (h.invariant (P := Wire.Inv) ⟨outOk_start, fun _ => rfl⟩
    fun _ _ _ hinv hout hs => hinv.step hout hs).2

/-- A put, a flush that takes three bytes with `rb_writev`, and one that takes
    the rest with `rb_write`. -/
theorem intact_after_partial_flush :
    ∃ w : Wire Unit, w.Intact ∧ w.accepted () = [112, 105, 110, 103, 13, 10] ∧
      w.sys.pending () = [] := by
  have hput := Option.isSome_iff_exists.mp
    (show ((Wire.start : Wire Unit).step (.putbuf () (some [112, 105, 110, 103]))).isSome from rfl)
  obtain ⟨w₁, h₁⟩ := hput
  refine ⟨_, intact_of_output_run (.next (a := .flush () false 9) (.next (a := .flush () true 3)
    (.next (a := .putbuf () (some [112, 105, 110, 103])) .init rfl h₁) rfl rfl) rfl rfl), ?_, ?_⟩
  all_goals
    obtain rfl := Option.some.inj h₁
    decide +kernel

end Bluebox.Linebuf
