/-
  Bluebox.Linebuf.Split

  How `rb_linebuf_parse` cuts a byte stream into lines, and whether the reads
  that delivered it can be told from the result.

  A queue fed with chunks shows what the scanner of `Bluebox.Lib.Framing`
  shows, with CR and LF as separators, a limit of 510 bytes and NUL as the end
  of the text (`Shows.parseLines`).  One chunk gives the lines of the stream;
  a chunk that ends inside an overlong line lets the rest of that line surface
  as a line of its own.
-/
import Bluebox.Lib.Framing
import Bluebox.Linebuf.Lines

namespace Bluebox.Linebuf

open Bluebox.Lib.Framing

-- ============================================================================
-- Streams and lines
-- ============================================================================

/-- The queue after the chunks were parsed into it, one after another. -/
def received (chunks : List Bytes) : Sys Unit :=
  chunks.foldl (fun s data => (rbLinebufParse s () data false).1) Sys.start

/-- The bytes up to the first NUL. -/
def cText (text : Bytes) : Bytes := text.takeWhile (! · == 0)

/-- The non-empty terminated lines, up to their first NUL. -/
def surfaced (ls : List BufLine) : List Bytes :=
  ((ls.filter (·.terminated)).map fun l => cText l.buf).filter (! ·.isEmpty)

/-- The lines of a stream: what stands before each CR or LF, and an unfinished
    rest once it is overlong; at most 510 bytes of each, the excess discarded. -/
def streamLines (stream : Bytes) : List Bytes :=
  ((runs isCrlf 510 stream).map fun l => cText (l.take 510)).filter (! ·.isEmpty)

/-- The stream has no excess that can surface: a byte after more than 510 bytes
    of its line is NUL, or neither the end of the line nor another 510 bytes
    follow it. -/
def ExcessHidden (stream : Bytes) : Prop :=
  ∀ a b c, stream = a ++ b :: c → isCrlf b = false → 510 < (a.rtakeWhile (! isCrlf ·)).length →
    ((∃ x ∈ c, isCrlf x = true) ∨ 510 < (b :: c).length) → b = 0

theorem excessHidden_iff_tame (stream : Bytes) :
    ExcessHidden stream ↔ Tame isCrlf (· == 0) 510 stream := by
  unfold ExcessHidden Tame
  simp only [beq_iff_eq]

-- ============================================================================
-- The queue shows what the scanner shows
-- ============================================================================

theorem surfaced_append (ls ls' : List BufLine) :
    surfaced (ls ++ ls') = surfaced ls ++ surfaced ls' := by
  simp [surfaced]

theorem surfaced_open {l : BufLine} (h : l.terminated = false) : surfaced [l] = [] := by
  simp [surfaced, h]

/-- A complete line shows its text. -/
theorem surfaced_complete {l : BufLine} {text : Bytes} (h : Complete l text) :
    surfaced [l] = visible (· == 0) [text] := by
  have htext := h.text_eq
  simp only [surfaced, List.filter_cons, h.terminated, if_true, List.filter_nil, List.map_cons,
    List.map_nil, cText, htext, visible]

/-- The lines show the output of the scanner, and the tail line waits with its
    run. -/
structure Shows (ls : List BufLine) (sc : Scan UInt8) : Prop where
  seen : surfaced ls = visible (· == 0) sc.out
  tail : (sc.run = [] ∧ ∀ l ∈ ls, l.terminated = true) ∨
    ∃ ls' l, ls = ls' ++ [l] ∧ (∀ l ∈ ls', l.terminated = true) ∧ Open l sc.run

/-- All lines are complete and the scanner has no run. -/
structure Rested (ls : List BufLine) (sc : Scan UInt8) : Prop where
  seen : surfaced ls = visible (· == 0) sc.out
  run_eq : sc.run = []
  terminated : ∀ l ∈ ls, l.terminated = true

/-- The scanner over a body and the CR and LF bytes that end it. -/
theorem scan_ended {data : Bytes} (sc : Scan UInt8) (hrun : crlfRun data ≠ []) :
    ∃ out, data.foldl (Scan.read isCrlf 510) sc
        = (afterLine data).foldl (Scan.read isCrlf 510) ⟨[], out⟩ ∧
      visible (· == 0) out
        = visible (· == 0) sc.out ++ visible (· == 0) [(sc.run ++ lineBody data).take 510] := by
  obtain ⟨x, xs, hx⟩ := List.exists_cons_of_ne_nil hrun
  have hsep : ∀ b ∈ x :: xs, isCrlf b = true := by rw [← hx]; exact crlfRun_crlf
  have hrest : ∀ b ∈ xs, isCrlf b = true := fun b hb => hsep b (List.mem_cons_of_mem _ hb)
  obtain ⟨hempty, hseen⟩ := Scan.foldl_read_seps isCrlf (· == 0) 510
    ⟨[], sc.out ++ [(sc.run ++ lineBody data).take 510]⟩ rfl hrest
  refine ⟨(xs.foldl (Scan.read isCrlf 510)
    ⟨[], sc.out ++ [(sc.run ++ lineBody data).take 510]⟩).out, ?_, ?_⟩
  · conv_lhs => rw [← line_split data]
    rw [List.foldl_append, List.foldl_append, Scan.foldl_read_other (lineBody_not_crlf data), hx,
      List.foldl_cons, Scan.read_sep (hsep x List.mem_cons_self)]
    simp only
    generalize xs.foldl (Scan.read isCrlf 510) _ = sc' at hempty
    obtain ⟨run, out⟩ := sc'
    obtain rfl : run = [] := hempty
    rfl
  · rw [hseen, visible_append]

/-- Copying into a waiting line, and breaking what follows once that is known
    to go well. -/
theorem shows_copy {ls : List BufLine} {l : BufLine} {sc : Scan UInt8} {data : Bytes} {fuel : Nat}
    (hseen : surfaced ls = visible (· == 0) sc.out) (hterm : ∀ l ∈ ls, l.terminated = true)
    (hl : Open l sc.run)
    (hnext : ∀ ls' sc', Rested ls' sc' →
      Shows (ls' ++ breakLines false fuel (afterLine data)) (sc'.chunk isCrlf 510 (afterLine data))) :
    Shows (ls ++ [(rbLinebufCopyLine l data).line] ++ breakLines false fuel (afterLine data))
      (sc.chunk isCrlf 510 data) := by
  have hcase := (rbLinebufCopyLine_case hl data).2
  generalize rbLinebufCopyLine l data = c at hcase
  cases hcase with
  | ended hrun hline _ =>
    obtain ⟨out, hfold, hout⟩ := scan_ended sc hrun
    have hchunk : sc.chunk isCrlf 510 data
        = (⟨[], out⟩ : Scan UInt8).chunk isCrlf 510 (afterLine data) := by
      unfold Scan.chunk
      rw [hfold]
    rw [hchunk]
    refine hnext _ _ ⟨?_, rfl, ?_⟩
    · rw [surfaced_append, surfaced_complete hline, hseen, hout]
    · intro l' hl'
      rcases List.mem_append.mp hl' with hl' | hl'
      · exact hterm l' hl'
      · rw [List.mem_singleton.mp hl']; exact hline.terminated
  | overlong hrun hlong hline _ =>
    have hall : ∀ b ∈ data, isCrlf b = false := by
      have := lineBody_not_crlf data
      rwa [lineBody_eq_self hrun] at this
    rw [afterLine_eq_nil hrun, breakLines_nil, List.append_nil, Scan.chunk,
      Scan.foldl_read_other hall, Scan.cut_long hlong]
    refine ⟨?_, Or.inl ⟨rfl, ?_⟩⟩
    · rw [surfaced_append, surfaced_complete hline, hseen, visible_append]
    · intro l' hl'
      rcases List.mem_append.mp hl' with hl' | hl'
      · exact hterm l' hl'
      · rw [List.mem_singleton.mp hl']; exact hline.terminated
  | waits hrun hline =>
    have hall : ∀ b ∈ data, isCrlf b = false := by
      have := lineBody_not_crlf data
      rwa [lineBody_eq_self hrun] at this
    rw [afterLine_eq_nil hrun, breakLines_nil, List.append_nil, Scan.chunk,
      Scan.foldl_read_other hall, Scan.cut_short (Nat.not_lt.mpr hline.length_le)]
    refine ⟨?_, Or.inr ⟨ls, c.line, rfl, hterm, hline⟩⟩
    rw [surfaced_append, surfaced_open hline.terminated, List.append_nil, hseen]

/-- Breaking data into new lines, by induction on the fuel. -/
theorem shows_breakLines (fuel : Nat) : ∀ {data : Bytes} {ls : List BufLine} {sc : Scan UInt8},
    data.length ≤ fuel → Rested ls sc →
    Shows (ls ++ breakLines false fuel data) (sc.chunk isCrlf 510 data) := by
  induction fuel with
  | zero =>
    intro data ls sc hlen h
    obtain rfl := List.length_eq_zero_iff.mp (Nat.le_zero.mp hlen)
    rw [breakLines, List.append_nil, Scan.chunk, List.foldl_nil,
      Scan.cut_short (by rw [h.run_eq]; exact Nat.not_lt_zero _)]
    exact ⟨h.seen, Or.inl ⟨h.run_eq, h.terminated⟩⟩
  | succ fuel ih =>
    intro data ls sc hlen h
    by_cases hdata : data = []
    · subst hdata
      rw [breakLines_nil, List.append_nil, Scan.chunk, List.foldl_nil,
        Scan.cut_short (by rw [h.run_eq]; exact Nat.not_lt_zero _)]
      exact ⟨h.seen, Or.inl ⟨h.run_eq, h.terminated⟩⟩
    · have hafter := afterLine_length_lt hdata
      rw [breakLines_cons fuel hdata, ← List.singleton_append, ← List.append_assoc]
      exact shows_copy h.seen h.terminated (h.run_eq ▸ open_fresh)
        fun _ _ h' => ih (by omega) h'

/-- Parsing a chunk is reading it with the scanner. -/
theorem Shows.parseLines {ls : List BufLine} {sc : Scan UInt8} {data : Bytes} (h : Shows ls sc)
    (hdata : data ≠ []) : Shows (parseLines false ls data) (sc.chunk isCrlf 510 data) := by
  obtain ⟨hrun, hterm⟩ | ⟨ls', l, rfl, hterm, hl⟩ := h.tail
  · cases hls : ls.getLast? with
    | none =>
      obtain rfl := List.getLast?_eq_none_iff.mp hls
      exact shows_breakLines data.length (Nat.le_refl _) ⟨h.seen, hrun, hterm⟩
    | some l =>
      obtain ⟨ls', rfl⟩ := List.getLast?_eq_some_iff.mp hls
      have hl := hterm l (by simp)
      rw [parseLines_terminated hl hdata]
      refine shows_breakLines data.length (Nat.le_refl _) ⟨?_, hrun, ?_⟩
      · rw [← h.seen]
        simp [surfaced, hl]
      · intro l' hl'
        rcases List.mem_append.mp hl' with hl' | hl'
        · exact hterm l' (List.mem_append_left _ hl')
        · rw [List.mem_singleton.mp hl']; exact hl
  · rw [parseLines_open hl]
    refine shows_copy ?_ hterm hl fun _ _ h' =>
      shows_breakLines data.length (Nat.le_of_lt (afterLine_length_lt hdata)) h'
    rw [← h.seen, surfaced_append, surfaced_open hl.terminated, List.append_nil]

/-- A fed queue shows the output of the chunked scanner. -/
theorem received_shows {chunks : List Bytes} (hne : ∀ c ∈ chunks, c ≠ []) :
    Sound (received chunks) () ∧
      Shows ((received chunks).queue ()) (chunks.foldl (Scan.chunk isCrlf 510) Scan.start) := by
  induction chunks using List.reverseRecOn with
  | nil => exact ⟨sound_start (), rfl, Or.inl ⟨rfl, fun l hl => absurd hl List.not_mem_nil⟩⟩
  | append_singleton chunks data ih =>
    obtain ⟨hsound, hshows⟩ := ih fun c hc => hne c (List.mem_append_left _ hc)
    have hparse := rbLinebufParse_queue hsound data false
    have hrec : received (chunks ++ [data]) = (rbLinebufParse (received chunks) () data false).1 := by
      rw [received, List.foldl_append]
      rfl
    rw [hrec, List.foldl_append, List.foldl_cons, List.foldl_nil]
    refine ⟨hparse.1, ?_⟩
    rw [hparse.2]
    exact hshows.parseLines (hne data (by simp))

theorem surfaced_received {chunks : List Bytes} (hne : ∀ c ∈ chunks, c ≠ []) :
    surfaced ((received chunks).queue ())
      = visible (· == 0) (chunks.foldl (Scan.chunk isCrlf 510) Scan.start).out :=
  (received_shows hne).2.seen

theorem streamLines_eq (stream : Bytes) :
    streamLines stream = visible (· == 0) (Scan.start.chunk isCrlf 510 stream).out := by
  rw [Scan.start_chunk_out]
  simp [streamLines, visible, cText, List.map_map, Function.comp_def]

-- ============================================================================
-- Independence of the chunks
-- ============================================================================

/-- The reads that delivered a stream do not show: any two ways of cutting it
    into non-empty chunks give the same lines, and these are the lines of the
    stream, without the excess of the overlong ones. -/
def ChunksHidden (stream : Bytes) : Prop :=
  (∀ cs ds : List Bytes, (∀ c ∈ cs, c ≠ []) → (∀ d ∈ ds, d ≠ []) → cs.flatten = stream →
      ds.flatten = stream →
      surfaced ((received cs).queue ()) = surfaced ((received ds).queue ())) ∧
    ∀ cs : List Bytes, (∀ c ∈ cs, c ≠ []) → cs.flatten = stream →
      surfaced ((received cs).queue ()) = streamLines stream

/-- The chunks of a stream are hidden exactly when its excess is. -/
theorem chunksHidden_iff (stream : Bytes) : ChunksHidden stream ↔ ExcessHidden stream := by
  rw [excessHidden_iff_tame, ← chunking_visible_iff (by decide), ← streamLines_eq]
  constructor
  · intro h chunks hne hflat
    rw [← surfaced_received hne]
    exact h.2 chunks hne hflat
  · intro h
    have hall : ∀ cs : List Bytes, (∀ c ∈ cs, c ≠ []) → cs.flatten = stream →
        surfaced ((received cs).queue ()) = streamLines stream := by
      intro cs hne hflat
      rw [surfaced_received hne]
      exact h cs hne hflat
    refine ⟨?_, hall⟩
    intro cs ds hcs hds hcflat hdflat
    rw [hall cs hcs hcflat, hall ds hds hdflat]

/-- A line of 512 bytes read as 511 bytes and the rest: the last byte surfaces. -/
theorem not_chunksHidden_of_overlong : ¬ ∀ stream, ChunksHidden stream := by
  intro h
  have hcs := (h (List.replicate 511 97 ++ [98, 10])).1 [List.replicate 511 97, [98, 10]]
    [List.replicate 511 97 ++ [98, 10]] (by decide +kernel) (by decide +kernel) rfl
    (List.append_nil _)
  revert hcs
  decide +kernel

end Bluebox.Linebuf
