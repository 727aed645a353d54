/-
  Bluebox.Linebuf.Lines

  The receive side of a queue as a list of lines.  As long as a queue holds
  allocated lines, each once (`Sound`), `rb_linebuf_parse` and `rb_linebuf_get`
  are functions of the list of its lines; the addresses do not matter
  (`rbLinebufParse_queue`, `rbLinebufGet_queue`).

  `CopyCase` says once what `rb_linebuf_copy_line` makes of a pending line and
  a piece of data; the results on line splitting and on dispatch use it.
-/
import Bluebox.Linebuf.Basic

namespace Bluebox.Linebuf

variable {ι : Type _} [DecidableEq ι]

-- ============================================================================
-- Queues as lists
-- ============================================================================

/-- The queue holds allocated lines, each at most once. -/
structure Sound (s : Sys ι) (q : ι) : Prop where
  nodup : (s.head q).list.Nodup
  allocated : ∀ id ∈ (s.head q).list, id < s.next

/-- A line fresh from `rb_linebuf_new_line`. -/
def BufLine.fresh : BufLine := { BufLine.alloc with refcount := 1 }

/-- The lines the loop of `rb_linebuf_parse` adds. -/
def breakLines (raw : Bool) : Nat → Bytes → List BufLine
  | 0, _ => []
  | fuel + 1, data =>
    if data = [] then []
    else
      let c := copyFn raw BufLine.fresh data
      c.line :: breakLines raw fuel (data.drop c.clen)

/-- `rb_linebuf_parse` on the list of lines. -/
def parseLines (raw : Bool) (ls : List BufLine) (data : Bytes) : List BufLine :=
  match ls.getLast? with
  | some l =>
    let c := copyFn raw l data
    if c.clen = data.length then ls.dropLast ++ [c.line]
    else ls.dropLast ++ [c.line] ++ breakLines raw data.length (data.drop c.clen)
  | none => breakLines raw data.length data

omit [DecidableEq ι] in
theorem sound_start (q : ι) : Sound (Sys.start : Sys ι) q :=
  ⟨List.nodup_nil, fun _ h => absurd h List.not_mem_nil⟩

theorem Sound.newLine {s : Sys ι} {q : ι} (h : Sound s q) :
    Sound (rbLinebufNewLine s q).1 q ∧
      (rbLinebufNewLine s q).1.queue q = s.queue q ++ [BufLine.fresh] := by
  have hne : ∀ id ∈ (s.head q).list, id ≠ s.next := fun id hid =>
    Nat.ne_of_lt (h.allocated id hid)
  refine ⟨⟨?_, ?_⟩, ?_⟩
  · simpa [rbLinebufNewLine, List.nodup_append, h.nodup] using hne
  · intro id hid
    simp only [rbLinebufNewLine, Function.update_self, List.mem_append, List.mem_singleton] at hid ⊢
    rcases hid with hid | rfl
    · exact Nat.lt_succ_of_lt (h.allocated id hid)
    · exact Nat.lt_succ_self _
  · have hmap : (s.head q).list.map (rbLinebufNewLine s q).1.line = (s.head q).list.map s.line :=
      List.map_congr_left fun id hid => by simp [rbLinebufNewLine, hne id hid]
    simp only [Sys.queue]
    rw [← hmap]
    simp [rbLinebufNewLine, BufLine.fresh]

theorem Sound.copyInto {s : Sys ι} {q : ι} (h : Sound s q) {ids : List Nat} {id : Nat}
    (hlist : (s.head q).list = ids ++ [id]) (data : Bytes) (raw : Bool) :
    Sound (copyInto s q id data raw).1 q ∧
      (copyInto s q id data raw).1.queue q
        = ids.map s.line ++ [(copyFn raw (s.line id) data).line] := by
  have hnot : id ∉ ids := by
    have := h.nodup
    rw [hlist, List.nodup_append] at this
    exact fun hid => this.2.2 id hid id (List.mem_singleton_self _) rfl
  refine ⟨⟨?_, ?_⟩, ?_⟩
  · simpa [Linebuf.copyInto] using h.nodup
  · simpa [Linebuf.copyInto] using h.allocated
  · have hmap : ids.map (Function.update s.line id (copyFn raw (s.line id) data).line)
        = ids.map s.line :=
      List.map_congr_left fun i hi => by
        rw [Function.update_of_ne]
        rintro rfl
        exact hnot hi
    simp [Linebuf.copyInto, Sys.queue, hlist, hmap]

/-- The loop appends the broken lines. -/
theorem Sound.parseLoop (q : ι) (raw : Bool) (fuel : Nat) :
    ∀ {s : Sys ι} (data : Bytes) (n : Nat), Sound s q →
      Sound (parseLoop q raw fuel s data n).1 q ∧
        (parseLoop q raw fuel s data n).1.queue q = s.queue q ++ breakLines raw fuel data := by
  induction fuel with
  | zero => intro s _ _ h; exact ⟨h, (List.append_nil _).symm⟩
  | succ fuel ih =>
    intro s data n h
    rw [Linebuf.parseLoop, breakLines]
    by_cases hdata : data = []
    · rw [if_pos hdata, if_pos hdata]
      exact ⟨h, (List.append_nil _).symm⟩
    · rw [if_neg hdata, if_neg hdata]
      have hnew := h.newLine
      have hlist : ((rbLinebufNewLine s q).1.head q).list = (s.head q).list ++ [s.next] := by
        simp [rbLinebufNewLine]
      have hline : (rbLinebufNewLine s q).1.line s.next = BufLine.fresh := by
        simp [rbLinebufNewLine, BufLine.fresh]
      have hmap : (s.head q).list.map (rbLinebufNewLine s q).1.line = s.queue q := by
        have hq := hnew.2
        rw [Sys.queue, hlist, List.map_append] at hq
        exact (List.append_inj' hq rfl).1
      have hcopy := hnew.1.copyInto hlist data raw
      have hrest := ih (data.drop (Linebuf.copyInto (rbLinebufNewLine s q).1 q s.next data raw).2)
        (n + 1) hcopy.1
      refine ⟨hrest.1, hrest.2.trans ?_⟩
      rw [hcopy.2, hmap, hline, List.append_assoc]
      simp only [Linebuf.copyInto, hline, List.singleton_append]

/-- `rb_linebuf_parse` works on the list of lines. -/
theorem rbLinebufParse_queue {s : Sys ι} {q : ι} (h : Sound s q) (data : Bytes) (raw : Bool) :
    Sound (rbLinebufParse s q data raw).1 q ∧
      (rbLinebufParse s q data raw).1.queue q = parseLines raw (s.queue q) data := by
  unfold rbLinebufParse parseLines
  cases hlast : (s.head q).list.getLast? with
  | none =>
    obtain hnil := List.getLast?_eq_none_iff.mp hlast
    have hloop := Sound.parseLoop q raw data.length data 0 h
    simp only [Sys.queue, hnil, List.map_nil, List.getLast?_nil] at hloop ⊢
    exact ⟨hloop.1, by simpa using hloop.2⟩
  | some id =>
    obtain ⟨ids, hlist⟩ := List.getLast?_eq_some_iff.mp hlast
    have hq : s.queue q = ids.map s.line ++ [s.line id] := by
      rw [Sys.queue, hlist, List.map_append, List.map_singleton]
    have hcopy := h.copyInto hlist data raw
    have hclen : (copyInto s q id data raw).2 = (copyFn raw (s.line id) data).clen := rfl
    simp only [hq, List.getLast?_concat, List.dropLast_concat, ← hclen]
    by_cases hall : (copyInto s q id data raw).2 = data.length
    · rw [if_pos hall, if_pos hall]
      exact hcopy
    · rw [if_neg hall, if_neg hall]
      have hloop := Sound.parseLoop q raw data.length
        (data.drop (copyInto s q id data raw).2) 1 hcopy.1
      exact ⟨hloop.1, hloop.2.trans (by rw [hcopy.2])⟩

/-- `rb_linebuf_get` on the list of lines. -/
def getLines (ls : List BufLine) (buflen : Int) (isPartial raw : Bool) : List BufLine × Bytes :=
  match ls with
  | [] => ([], [])
  | l :: rest =>
    if isPartial || l.terminated then (rest, lineText l buflen raw) else (l :: rest, [])

theorem rbLinebufGet_queue {s : Sys ι} {q : ι} (h : Sound s q) (buflen : Int)
    (isPartial raw : Bool) :
    Sound (rbLinebufGet s q buflen isPartial raw).1 q ∧
      ((rbLinebufGet s q buflen isPartial raw).1.queue q,
        (rbLinebufGet s q buflen isPartial raw).2) = getLines (s.queue q) buflen isPartial raw := by
  unfold rbLinebufGet getLines
  cases hlist : (s.head q).list with
  | nil =>
    have hq : s.queue q = [] := by rw [Sys.queue, hlist, List.map_nil]
    rw [hq]
    exact ⟨h, rfl⟩
  | cons id rest =>
    have hq : s.queue q = s.line id :: rest.map s.line := by
      rw [Sys.queue, hlist, List.map_cons]
    rw [hq]
    simp only
    by_cases htake : (isPartial || (s.line id).terminated) = true
    · rw [if_pos htake, if_pos htake]
      have hnodup := h.nodup
      rw [hlist, List.nodup_cons] at hnodup
      rw [rbLinebufDoneLine_cons hlist]
      refine ⟨⟨?_, ?_⟩, ?_⟩
      · simpa using hnodup.2
      · intro i hi
        simp only [Sys.setHead_head, Function.update_self] at hi
        exact h.allocated i (by rw [hlist]; exact List.mem_cons_of_mem _ hi)
      · have hmap : rest.map (Function.update s.line id
            { s.line id with refcount := (s.line id).refcount - 1 }) = rest.map s.line :=
          List.map_congr_left fun i hi => by
            rw [Function.update_of_ne]
            rintro rfl
            exact hnodup.1 hi
        simp [Sys.queue, hmap]
    · rw [if_neg htake, if_neg htake, ← hq]
      exact ⟨h, rfl⟩

-- ============================================================================
-- What one copy makes of the data
-- ============================================================================

/-- The bytes before the first CR or LF. -/
def lineBody (data : Bytes) : Bytes := data.takeWhile (! isCrlf ·)

/-- The run of CR and LF bytes there. -/
def crlfRun (data : Bytes) : Bytes := (data.dropWhile (! isCrlf ·)).takeWhile isCrlf

/-- What follows that run. -/
def afterLine (data : Bytes) : Bytes := (data.dropWhile (! isCrlf ·)).dropWhile isCrlf

theorem line_split (data : Bytes) : lineBody data ++ crlfRun data ++ afterLine data = data := by
  rw [lineBody, crlfRun, afterLine, List.append_assoc, List.takeWhile_append_dropWhile,
    List.takeWhile_append_dropWhile]

theorem lineBody_not_crlf (data : Bytes) : ∀ b ∈ lineBody data, isCrlf b = false := by
  intro b hb
  simpa using List.mem_takeWhile_imp hb

theorem crlfRun_crlf {data : Bytes} : ∀ b ∈ crlfRun data, isCrlf b = true :=
  fun _ hb => List.mem_takeWhile_imp hb

theorem afterLine_head {data : Bytes} {b : UInt8} {rest : Bytes}
    (h : afterLine data = b :: rest) : isCrlf b = false := by
  unfold afterLine at h
  have hhead := List.head_dropWhile_not isCrlf (l := data.dropWhile (! isCrlf ·))
    (by rw [h]; exact List.cons_ne_nil _ _)
  simpa only [h, List.head_cons] using hhead

/-- Without CR and LF there is nothing after the line. -/
theorem afterLine_eq_nil {data : Bytes} (h : crlfRun data = []) : afterLine data = [] := by
  unfold crlfRun at h
  unfold afterLine
  cases hd : data.dropWhile (! isCrlf ·) with
  | nil => rfl
  | cons b rest =>
    have hb := List.head_dropWhile_not (! isCrlf ·) (l := data)
      (by rw [hd]; exact List.cons_ne_nil _ _)
    simp only [hd, List.head_cons, Bool.not_eq_false'] at hb
    rw [hd, List.takeWhile_cons_of_pos hb] at h
    exact absurd h (List.cons_ne_nil _ _)

theorem rbLinebufSkipCrlf_eq (data : Bytes) :
    rbLinebufSkipCrlf data = (lineBody data).length + (crlfRun data).length := by
  have hdrop : data.drop (lineBody data).length = data.dropWhile (! isCrlf ·) := by
    have hsplit : lineBody data ++ data.dropWhile (! isCrlf ·) = data :=
      List.takeWhile_append_dropWhile
    conv_lhs => arg 2; rw [← hsplit]
    exact List.drop_left
  rw [rbLinebufSkipCrlf, ← lineBody, hdrop]
  rfl

theorem take_skipCrlf (data : Bytes) :
    data.take (rbLinebufSkipCrlf data) = lineBody data ++ crlfRun data := by
  rw [rbLinebufSkipCrlf_eq, ← List.length_append]
  conv_lhs => arg 2; rw [← line_split data]
  exact List.take_left

theorem drop_skipCrlf (data : Bytes) : data.drop (rbLinebufSkipCrlf data) = afterLine data := by
  rw [rbLinebufSkipCrlf_eq, ← List.length_append]
  conv_lhs => arg 2; rw [← line_split data]
  exact List.drop_left

/-- A line that waits for more data: its bytes are `r`. -/
structure Open (l : BufLine) (r : Bytes) : Prop where
  terminated : l.terminated = false
  buf_eq : l.buf = r
  len_eq : l.len = r.length
  length_le : r.length ≤ 510
  not_crlf : ∀ b ∈ r, isCrlf b = false

/-- A complete line that reads as `text` up to its first NUL; only an empty
    text may leave it without bytes. -/
structure Complete (l : BufLine) (text : Bytes) : Prop where
  terminated : l.terminated = true
  raw : l.raw = false
  len_eq : l.len = l.buf.length
  length_le : l.buf.length ≤ 510
  text_eq : l.buf.takeWhile (! · == 0) = text.takeWhile (! · == 0)

theorem open_fresh : Open BufLine.fresh [] :=
  ⟨rfl, rfl, rfl, Nat.zero_le _, fun _ h => absurd h List.not_mem_nil⟩

/-- The CR and LF bytes at the end of the buffer, when they are all new. -/
theorem yankCrlf_append {xs ys : Bytes} {n : Nat} (hxs : ∀ b ∈ xs, isCrlf b = false)
    (hys : ∀ b ∈ ys, isCrlf b = true) (hn : ys.length ≤ n) : yankCrlf (xs ++ ys) n = ys.length := by
  have hstop : xs.reverse.takeWhile isCrlf = [] := by
    cases hx : xs.reverse with
    | nil => rfl
    | cons b rest =>
      have hb : b ∈ xs := List.mem_reverse.mp (by rw [hx]; exact List.mem_cons_self)
      rw [List.takeWhile_cons_of_neg (by rw [hxs b hb]; exact Bool.false_ne_true)]
  rw [yankCrlf, List.reverse_append,
    List.takeWhile_append_of_pos (fun b hb => hys b (List.mem_reverse.mp hb)), hstop,
    List.append_nil, List.length_reverse]
  omega

/-- NUL bytes at the end do not show. -/
theorem takeWhile_append_nuls (xs : Bytes) (n : Nat) :
    (xs ++ List.replicate n 0).takeWhile (! · == 0) = xs.takeWhile (! · == 0) := by
  induction xs with
  | nil => cases n <;> rfl
  | cons b rest ih =>
    rw [List.cons_append, List.takeWhile_cons, List.takeWhile_cons, ih]

/-- What `rb_linebuf_copy_line` does to a line that waits with bytes `r`: the
    data has the end of the line, or it is too long, or the line waits on. -/
inductive CopyCase (r data : Bytes) (c : Copied) : Prop
  | ended (hrun : crlfRun data ≠ []) (hline : Complete c.line ((r ++ lineBody data).take 510))
      (hempty : c.line.buf = [] ↔ r ++ lineBody data = [] ∧ (crlfRun data).length ≤ 510)
  | overlong (hrun : crlfRun data = []) (hlong : 510 < (r ++ data).length)
      (hline : Complete c.line ((r ++ data).take 510)) (hfull : c.line.buf ≠ [])
  | waits (hrun : crlfRun data = []) (hline : Open c.line (r ++ data))

section Copy

variable {l : BufLine} {r data : Bytes}

theorem Open.getLast_any (h : Open l r) :
    (l.buf ++ data.take (rbLinebufSkipCrlf data)).getLast?.any isCrlf = true
      ↔ crlfRun data ≠ [] := by
  rw [take_skipCrlf, h.buf_eq, ← List.append_assoc]
  constructor
  · intro hany hrun
    rw [hrun, List.append_nil] at hany
    cases hlast : (r ++ lineBody data).getLast? with
    | none => rw [hlast] at hany; cases hany
    | some b =>
      rw [hlast] at hany
      have hb := List.mem_of_getLast? hlast
      have hfalse : isCrlf b = false := by
        rcases List.mem_append.mp hb with hb | hb
        · exact h.not_crlf b hb
        · exact lineBody_not_crlf _ b hb
      rw [Option.any_some, hfalse] at hany
      cases hany
  · intro hrun
    have hlast : (r ++ lineBody data ++ crlfRun data).getLast?
        = some ((crlfRun data).getLast hrun) := by
      rw [List.getLast?_append_of_ne_nil _ hrun, List.getLast?_eq_some_getLast hrun]
    rw [hlast, Option.any_some]
    exact crlfRun_crlf _ (List.getLast_mem hrun)

theorem Open.body_not_crlf (h : Open l r) (data : Bytes) : ∀ b ∈ r ++ lineBody data, isCrlf b = false := by
  intro b hb
  rcases List.mem_append.mp hb with hb | hb
  · exact h.not_crlf b hb
  · exact lineBody_not_crlf _ b hb

/-- Without CR and LF the data is all body. -/
theorem lineBody_eq_self (hrun : crlfRun data = []) : lineBody data = data := by
  have hsplit := line_split data
  rwa [hrun, afterLine_eq_nil hrun, List.append_nil, List.append_nil] at hsplit

/-- The copied bytes of an overflow, by whether the line itself is too long or
    only its CR and LF bytes do not fit. -/
theorem Open.overflow_buf (h : Open l r) (ho : 510 - r.length < rbLinebufSkipCrlf data) :
    let full := r ++ data.take (510 - r.length)
    let n := yankCrlf full (rbLinebufSkipCrlf data)
    full.take (full.length - n) ++ List.replicate n 0
      = (r ++ lineBody data).take 510
        ++ List.replicate (510 - (r ++ lineBody data).length) 0 := by
  have hle := h.length_le
  have hskip := rbLinebufSkipCrlf_eq data
  have hfull : r ++ data.take (510 - r.length)
      = (r ++ lineBody data).take 510
        ++ (crlfRun data).take (510 - (r ++ lineBody data).length) := by
    have hdata : data.take (510 - r.length)
        = (lineBody data ++ crlfRun data).take (510 - r.length) := by
      rw [← take_skipCrlf, List.take_take, Nat.min_eq_left (Nat.le_of_lt ho)]
    rw [hdata, ← List.take_append, List.append_assoc, @List.take_append _ r,
      List.take_of_length_le hle]
  have hys : ((crlfRun data).take (510 - (r ++ lineBody data).length)).length
      = 510 - (r ++ lineBody data).length := by
    rw [List.length_take, List.length_append]
    omega
  simp only
  rw [hfull, yankCrlf_append, List.length_append, Nat.add_sub_cancel, List.take_left, hys]
  · exact fun b hb => h.body_not_crlf data b (List.mem_of_mem_take hb)
  · exact fun b hb => crlfRun_crlf b (List.mem_of_mem_take hb)
  · rw [hys, List.length_append]
    omega

/-- The copy function on a waiting line. -/
theorem rbLinebufCopyLine_case (h : Open l r) (data : Bytes) :
    (rbLinebufCopyLine l data).clen = rbLinebufSkipCrlf data ∧
      CopyCase r data (rbLinebufCopyLine l data) := by
  have hskip := rbLinebufSkipCrlf_eq data
  have hlen := h.len_eq
  have hle := h.length_le
  have hroom : (bufDataSize : Int) - l.len - 1 = (510 - r.length : Nat) := by
    simp only [bufDataSize]
    omega
  by_cases ho : (rbLinebufSkipCrlf data : Int) > bufDataSize - l.len - 1
  · rw [rbLinebufCopyLine_overflow h.terminated ho]
    refine ⟨rfl, ?_⟩
    rw [hroom] at ho
    have hbuf := h.overflow_buf (show 510 - r.length < rbLinebufSkipCrlf data by omega)
    simp only [hroom, Int.toNat_natCast, h.buf_eq] at hbuf ⊢
    rw [hbuf]
    have hlength : ((r ++ lineBody data).take 510
        ++ List.replicate (510 - (r ++ lineBody data).length) (0 : UInt8)).length = 510 := by
      simp only [List.length_append, List.length_take, List.length_replicate]
      omega
    have hne : (r ++ lineBody data).take 510
        ++ List.replicate (510 - (r ++ lineBody data).length) (0 : UInt8) ≠ [] := by
      intro hnil
      rw [hnil] at hlength
      cases hlength
    have hcomplete : ∀ added clen, Complete (Copied.mk { l with
        buf := (r ++ lineBody data).take 510
          ++ List.replicate (510 - (r ++ lineBody data).length) (0 : UInt8)
        terminated := true, raw := false, len := bufDataSize - 1 } clen added).line
        ((r ++ lineBody data).take 510) := fun added clen =>
      ⟨rfl, rfl, by simp only [hlength]; rfl, Nat.le_of_eq hlength, takeWhile_append_nuls _ _⟩
    by_cases hrun : crlfRun data = []
    · have hself := lineBody_eq_self hrun
      have hlong : 510 < (r ++ data).length := by
        rw [hrun, hself, List.length_nil] at hskip
        rw [List.length_append]
        omega
      refine .overlong hrun hlong ?_ hne
      have := hcomplete (bufDataSize - 1) (rbLinebufSkipCrlf data)
      rwa [hself] at this ⊢
    · refine .ended hrun (hcomplete _ _) ⟨fun hnil => absurd hnil hne, ?_⟩
      rintro ⟨hnil, hshort⟩
      have hzero : (r ++ lineBody data).length = 0 := by rw [hnil]; rfl
      rw [List.length_append] at hzero
      omega
  · rw [hroom] at ho
    cases he : (l.buf ++ data.take (rbLinebufSkipCrlf data)).getLast?.any isCrlf with
    | true =>
      rw [rbLinebufCopyLine_complete h.terminated (by rw [hroom]; exact ho) he]
      refine ⟨rfl, ?_⟩
      have hrun := h.getLast_any.mp he
      have hyank : yankCrlf (l.buf ++ data.take (rbLinebufSkipCrlf data)) (rbLinebufSkipCrlf data)
          = (crlfRun data).length := by
        rw [take_skipCrlf, h.buf_eq, ← List.append_assoc]
        exact yankCrlf_append (h.body_not_crlf data) crlfRun_crlf (by omega)
      have hbuf : (l.buf ++ data.take (rbLinebufSkipCrlf data)).take
          ((l.buf ++ data.take (rbLinebufSkipCrlf data)).length - (crlfRun data).length)
          = r ++ lineBody data := by
        rw [take_skipCrlf, h.buf_eq, ← List.append_assoc, List.length_append,
          Nat.add_sub_cancel, List.take_left]
      simp only [hyank, hbuf]
      have hshort : (r ++ lineBody data).length ≤ 510 := by
        rw [List.length_append]
        omega
      refine .ended hrun ⟨rfl, rfl, ?_, hshort, ?_⟩ ?_
      · simp only [List.length_append]
        omega
      · rw [List.take_of_length_le hshort]
      · refine ⟨fun hnil => ⟨hnil, ?_⟩, fun hnil => hnil.1⟩
        omega
    | false =>
      rw [rbLinebufCopyLine_open h.terminated (by rw [hroom]; exact ho) he]
      have hrun : crlfRun data = [] := by
        by_contra hne
        rw [h.getLast_any.mpr hne] at he
        cases he
      have hall : data.take (rbLinebufSkipCrlf data) = data := by
        rw [take_skipCrlf, hrun, List.append_nil, lineBody_eq_self hrun]
      have hself := lineBody_eq_self hrun
      rw [hrun, hself, List.length_nil] at hskip
      refine ⟨rfl, .waits hrun ⟨rfl, ?_, ?_, ?_, ?_⟩⟩
      · simp only [hall, h.buf_eq]
      · simp only [hskip, hlen, List.length_append]
        omega
      · rw [List.length_append]
        omega
      · have := h.body_not_crlf data
        rwa [hself] at this

end Copy

-- ============================================================================
-- Parsing onto a list of lines
-- ============================================================================

section Parse

variable {data : Bytes}

theorem breakLines_nil (raw : Bool) (fuel : Nat) : breakLines raw fuel [] = [] := by
  cases fuel with
  | zero => rfl
  | succ fuel => rw [breakLines, if_pos rfl]

theorem breakLines_cons (fuel : Nat) (hdata : data ≠ []) :
    breakLines false (fuel + 1) data
      = (rbLinebufCopyLine BufLine.fresh data).line :: breakLines false fuel (afterLine data) := by
  rw [breakLines, if_neg hdata]
  simp only [copyFn]
  rw [(rbLinebufCopyLine_case open_fresh data).1, drop_skipCrlf]

theorem afterLine_length_lt (hdata : data ≠ []) : (afterLine data).length < data.length := by
  have hsplit := congrArg List.length (line_split data)
  simp only [List.length_append] at hsplit
  have hpos : 0 < (lineBody data).length + (crlfRun data).length := by
    by_contra hzero
    have hbody : lineBody data = [] := List.length_eq_zero_iff.mp (by omega)
    have hrun : crlfRun data = [] := List.length_eq_zero_iff.mp (by omega)
    rw [lineBody_eq_self hrun] at hbody
    exact hdata hbody
  omega

theorem parseLines_nil (data : Bytes) :
    parseLines false [] data = breakLines false data.length data := rfl

/-- A complete tail line is left alone. -/
theorem parseLines_terminated {ls : List BufLine} {l : BufLine} (hl : l.terminated = true)
    (hdata : data ≠ []) :
    parseLines false (ls ++ [l]) data
      = ls ++ [{ l with raw := false }] ++ breakLines false data.length data := by
  have hlen : ¬ 0 = data.length := fun h => hdata (List.length_eq_zero_iff.mp h.symm)
  unfold parseLines
  rw [List.getLast?_concat]
  simp only [copyFn, rbLinebufCopyLine_terminated hl, List.dropLast_concat]
  rw [if_neg hlen, List.drop_zero]

/-- A waiting tail line gets the first part of the data. -/
theorem parseLines_open {ls : List BufLine} {l : BufLine} {r : Bytes} (hl : Open l r) :
    parseLines false (ls ++ [l]) data
      = ls ++ [(rbLinebufCopyLine l data).line]
        ++ breakLines false data.length (afterLine data) := by
  unfold parseLines
  rw [List.getLast?_concat]
  simp only [copyFn, List.dropLast_concat]
  rw [(rbLinebufCopyLine_case hl data).1, drop_skipCrlf]
  by_cases hall : rbLinebufSkipCrlf data = data.length
  · rw [if_pos hall]
    have hnil : afterLine data = [] := by
      rw [← drop_skipCrlf, hall, List.drop_length]
    rw [hnil, breakLines_nil, List.append_nil]
  · rw [if_neg hall]

end Parse

end Bluebox.Linebuf
