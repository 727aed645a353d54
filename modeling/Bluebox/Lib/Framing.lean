/-
  Bluebox.Lib.Framing

  Cutting a stream into separated runs with a length limit, fed in chunks.

  The scanner collects the current run.  A separator emits the run, cut to the
  limit, and starts a new one.  At the end of a chunk a run that is over the
  limit is emitted as well, and what follows in the next chunk starts a new
  run: this is where the cutting of the stream shows.  `Scan.visible` is what
  a reader of the emitted runs sees, each up to its first null element and
  without the empty ones.

  `chunking_visible_iff`: the way a stream is cut into chunks is invisible
  exactly when the stream is `Tame`.
-/
import Mathlib.Data.List.Basic
import Mathlib.Data.List.DropRight

namespace Bluebox.Lib.Framing

variable {β : Type _}

/-- The run collected so far and the runs emitted. -/
structure Scan (β : Type _) where
  run : List β
  out : List (List β)

/-- Nothing read. -/
def Scan.start : Scan β := ⟨[], []⟩

section Defs

variable (sep nul : β → Bool) (lim : Nat)

/-- Read one element. -/
def Scan.read (s : Scan β) (b : β) : Scan β :=
  if sep b then ⟨[], s.out ++ [s.run.take lim]⟩ else ⟨s.run ++ [b], s.out⟩

/-- The end of a chunk. -/
def Scan.cut (s : Scan β) : Scan β :=
  if lim < s.run.length then ⟨[], s.out ++ [s.run.take lim]⟩ else s

/-- Read one chunk. -/
def Scan.chunk (s : Scan β) (data : List β) : Scan β := (data.foldl (Scan.read sep lim) s).cut lim

/-- The emitted runs as they are seen: up to the first null element, without
    those that are empty then. -/
def visible (out : List (List β)) : List (List β) :=
  (out.map fun l => l.takeWhile (! nul ·)).filter (! ·.isEmpty)

/-- The runs of a stream: those a separator ends, and the last one if it is over
    the limit. -/
def runs (s : List β) : List (List β) :=
  (s.splitOnP sep).dropLast ++ (s.splitOnP sep).getLast?.toList.filter (lim < ·.length)

/-- No element after the limit of a run can surface: it is null, or the run
    neither ends nor fills another limit after it. -/
def Tame (s : List β) : Prop :=
  ∀ a b c, s = a ++ b :: c → sep b = false → lim < (a.rtakeWhile (! sep ·)).length →
    ((∃ x ∈ c, sep x = true) ∨ lim < (b :: c).length) → nul b = true

end Defs

variable {sep nul : β → Bool} {lim : Nat}

-- ============================================================================
-- Equations
-- ============================================================================

theorem Scan.read_sep {s : Scan β} {b : β} (hb : sep b = true) :
    s.read sep lim b = ⟨[], s.out ++ [s.run.take lim]⟩ := by
  rw [Scan.read, if_pos hb]

theorem Scan.read_other {s : Scan β} {b : β} (hb : sep b = false) :
    s.read sep lim b = ⟨s.run ++ [b], s.out⟩ := by
  rw [Scan.read, if_neg (by rw [hb]; exact Bool.false_ne_true)]

theorem Scan.cut_long {s : Scan β} (h : lim < s.run.length) :
    s.cut lim = ⟨[], s.out ++ [s.run.take lim]⟩ := by
  rw [Scan.cut, if_pos h]

theorem Scan.cut_short {s : Scan β} (h : ¬ lim < s.run.length) : s.cut lim = s := by
  rw [Scan.cut, if_neg h]

/-- Reading elements that are no separators collects them. -/
theorem Scan.foldl_read_other {data : List β} : ∀ {s : Scan β}, (∀ b ∈ data, sep b = false) →
    data.foldl (Scan.read sep lim) s = ⟨s.run ++ data, s.out⟩ := by
  induction data with
  | nil => intro s _; simp
  | cons b rest ih =>
    intro s hdata
    rw [List.foldl_cons, Scan.read_other (hdata b List.mem_cons_self),
      ih fun x hx => hdata x (List.mem_cons_of_mem _ hx), List.append_assoc]
    rfl

@[simp] theorem visible_append (out out' : List (List β)) :
    visible nul (out ++ out') = visible nul out ++ visible nul out' := by
  simp [visible]

theorem visible_cons (l : List β) (out : List (List β)) :
    visible nul (l :: out) = visible nul [l] ++ visible nul out :=
  visible_append [l] out

theorem visible_singleton_nil : visible nul [([] : List β)] = [] := rfl

/-- A run that starts with a null element is not seen. -/
theorem visible_take_of_nul {run : List β} (h : ∀ b rest, run = b :: rest → nul b = true) :
    visible nul [run.take lim] = [] := by
  cases run with
  | nil => simp [visible]
  | cons b rest =>
    cases lim with
    | zero => simp [visible]
    | succ n => simp [visible, h b rest rfl]

variable (sep nul lim) in
/-- Separators after a separator emit nothing that is seen. -/
theorem Scan.foldl_read_seps {data : List β} : ∀ s : Scan β, s.run = [] →
    (∀ b ∈ data, sep b = true) →
    (data.foldl (Scan.read sep lim) s).run = [] ∧
      visible nul (data.foldl (Scan.read sep lim) s).out = visible nul s.out := by
  induction data with
  | nil => intro s hrun _; exact ⟨hrun, rfl⟩
  | cons b rest ih =>
    intro s hrun hdata
    rw [List.foldl_cons, Scan.read_sep (hdata b List.mem_cons_self)]
    have hrest := ih ⟨[], s.out ++ [s.run.take lim]⟩ rfl
      fun x hx => hdata x (List.mem_cons_of_mem _ hx)
    refine ⟨hrest.1, hrest.2.trans ?_⟩
    rw [hrun, List.take_nil, visible_append, visible_singleton_nil, List.append_nil]

variable (sep lim) in
/-- The run of the scanner without cuts is the end of the stream. -/
theorem Scan.run_eq_rtakeWhile (data : List β) :
    (data.foldl (Scan.read sep lim) Scan.start).run = data.rtakeWhile (! sep ·) := by
  induction data using List.reverseRecOn with
  | nil => rfl
  | append_singleton data b ih =>
    rw [List.foldl_append, List.foldl_cons, List.foldl_nil, List.rtakeWhile_concat]
    cases hb : sep b with
    | true => rw [Scan.read_sep hb]; rfl
    | false => rw [Scan.read_other hb, ih]; rfl

variable (sep lim) in
/-- The scanner without cuts splits the stream at its separators. -/
theorem Scan.foldl_read_splitOnP (data : List β) : ∀ s : Scan β, (∀ b ∈ s.run, sep b = false) →
    (data.foldl (Scan.read sep lim) s).out
        = s.out ++ ((s.run ++ data).splitOnP sep).dropLast.map (·.take lim) ∧
      ((s.run ++ data).splitOnP sep).getLast? = some (data.foldl (Scan.read sep lim) s).run := by
  induction data with
  | nil =>
    intro s hrun
    rw [List.append_nil, List.splitOnP_eq_singleton hrun]
    exact ⟨(List.append_nil _).symm, rfl⟩
  | cons b rest ih =>
    intro s hrun
    rw [List.foldl_cons]
    cases hb : sep b with
    | true =>
      rw [Scan.read_sep hb, List.splitOnP_append_cons_of_forall_mem hrun b hb]
      obtain ⟨hout, hlast⟩ := ih ⟨[], s.out ++ [s.run.take lim]⟩
        (fun x hx => absurd hx List.not_mem_nil)
      have hne := List.splitOnP_ne_nil sep rest
      rw [List.nil_append] at hout hlast
      rw [List.dropLast_cons_of_ne_nil hne, List.map_cons, List.getLast?_cons_of_ne_nil hne]
      exact ⟨by rw [hout, List.append_assoc]; rfl, hlast⟩
    | false =>
      rw [Scan.read_other hb]
      have hrest := ih ⟨s.run ++ [b], s.out⟩ (by
        intro x hx
        rcases List.mem_append.mp hx with hx | hx
        · exact hrun x hx
        · rwa [List.mem_singleton.mp hx])
      simpa using hrest

/-- One chunk gives the runs of the stream, cut to the limit. -/
theorem Scan.start_chunk_out (s : List β) :
    (Scan.start.chunk sep lim s).out = (runs sep lim s).map (·.take lim) := by
  obtain ⟨hout, hlast⟩ := Scan.foldl_read_splitOnP sep lim s Scan.start
    (fun x hx => absurd hx List.not_mem_nil)
  simp only [Scan.start, List.nil_append] at hout hlast
  unfold Scan.chunk runs
  rw [hlast]
  by_cases hlong : lim < (s.foldl (Scan.read sep lim) Scan.start).run.length
  · rw [Scan.cut_long hlong]
    simp only [Scan.start] at hlong ⊢
    simp [hout, hlong]
  · rw [Scan.cut_short hlong]
    simp only [Scan.start] at hlong ⊢
    simp [hout, hlong]

-- ============================================================================
-- A tame stream hides its cuts
-- ============================================================================

/-- The chunked scanner `s` beside the scanner `w` that reads the same elements
    without cuts: they agree, or a cut fell into the current run after more
    than `lim` elements, and `s` has emitted the front of it already. -/
inductive Beside (nul : β → Bool) (lim : Nat) (s w : Scan β) : Prop
  | same (hrun : s.run = w.run) (hout : visible nul s.out = visible nul w.out)
  | ahead (front : List β) (hrun : w.run = front ++ s.run) (hfront : lim < front.length)
      (hout : visible nul s.out = visible nul w.out ++ visible nul [w.run.take lim])

/-- In a tame stream, the part of a run after a cut starts with a null element
    once the run ends or fills the limit again. -/
theorem Tame.nul_of_ahead {a rest front run : List β} (h : Tame sep nul lim (a ++ rest))
    (hrun : a.rtakeWhile (! sep ·) = front ++ run) (hfront : lim < front.length)
    (hnext : (∃ x ∈ rest, sep x = true) ∨ lim < run.length) :
    ∀ b tail, run = b :: tail → nul b = true := by
  rintro b tail rfl
  obtain ⟨pre, hpre⟩ := List.rtakeWhile_suffix (! sep ·) a
  have ha : a = (pre ++ front) ++ b :: tail := by
    rw [← hpre, hrun, List.append_assoc]
  have hmem : ∀ x ∈ front ++ b :: tail, sep x = false := by
    intro x hx
    rw [← hrun] at hx
    have := List.mem_rtakeWhile_imp hx
    simpa using this
  refine h (pre ++ front) b (tail ++ rest) ?_ ?_ ?_ ?_
  · rw [ha, List.append_assoc, List.cons_append]
  · exact hmem b (by simp)
  · have hsub : front <:+ (pre ++ front).rtakeWhile (! sep ·) := by
      rw [List.rtakeWhile, List.reverse_append, ← List.reverse_prefix, List.reverse_reverse]
      rw [List.takeWhile_append_of_pos]
      · exact List.prefix_append _ _
      · intro x hx
        have := hmem x (List.mem_append_left _ (List.mem_reverse.mp hx))
        simp [this]
    exact Nat.lt_of_lt_of_le hfront hsub.length_le
  · rcases hnext with ⟨x, hx, hsep⟩ | hlong
    · exact Or.inl ⟨x, List.mem_append_right _ hx, hsep⟩
    · right
      simp only [List.length_cons, List.length_append] at hlong ⊢
      omega

/-- Reading one element keeps the scanners beside each other. -/
theorem Beside.read {s : Scan β} {a : List β} {b : β} {rest : List β}
    (h : Beside nul lim s (a.foldl (Scan.read sep lim) Scan.start))
    (htame : Tame sep nul lim (a ++ b :: rest)) :
    Beside nul lim (s.read sep lim b) ((a ++ [b]).foldl (Scan.read sep lim) Scan.start) := by
  rw [List.foldl_append, List.foldl_cons, List.foldl_nil]
  have hwrun := Scan.run_eq_rtakeWhile sep lim a
  cases hb : sep b with
  | true =>
    rw [Scan.read_sep hb, Scan.read_sep hb]
    cases h with
    | same hrun hout => exact .same rfl (by rw [visible_append, visible_append, hrun, hout])
    | ahead front hrun hfront hout =>
      refine .same rfl ?_
      have hnul := htame.nul_of_ahead (hwrun.symm.trans hrun) hfront
        (Or.inl ⟨b, List.mem_cons_self, hb⟩)
      rw [visible_append, visible_append, hout, visible_take_of_nul hnul, List.append_nil]
  | false =>
    rw [Scan.read_other hb, Scan.read_other hb]
    cases h with
    | same hrun hout => exact .same (by rw [hrun]) hout
    | ahead front hrun hfront hout =>
      refine .ahead front (by rw [hrun, List.append_assoc]) hfront ?_
      have hle : lim ≤ (List.foldl (Scan.read sep lim) Scan.start a).run.length := by
        rw [hrun, List.length_append]
        omega
      rw [List.take_append_of_le_length hle]
      exact hout

/-- So does reading a list. -/
theorem Beside.foldl {data : List β} : ∀ {s : Scan β} {a rest : List β},
    Beside nul lim s (a.foldl (Scan.read sep lim) Scan.start) →
    Tame sep nul lim (a ++ (data ++ rest)) →
    Beside nul lim (data.foldl (Scan.read sep lim) s)
      ((a ++ data).foldl (Scan.read sep lim) Scan.start) := by
  induction data with
  | nil => intro s a rest h _; rwa [List.append_nil]
  | cons b data ih =>
    intro s a rest h htame
    have hstep := h.read (show Tame sep nul lim (a ++ b :: (data ++ rest)) from htame)
    have hnext : Tame sep nul lim (a ++ [b] ++ (data ++ rest)) := by
      rwa [List.append_assoc]
    have hrest := ih hstep hnext
    rwa [List.append_assoc] at hrest

/-- So does the end of a chunk. -/
theorem Beside.cut {s : Scan β} {a rest : List β}
    (h : Beside nul lim s (a.foldl (Scan.read sep lim) Scan.start))
    (htame : Tame sep nul lim (a ++ rest)) :
    Beside nul lim (s.cut lim) (a.foldl (Scan.read sep lim) Scan.start) := by
  have hwrun := Scan.run_eq_rtakeWhile sep lim a
  by_cases hlong : lim < s.run.length
  · rw [Scan.cut_long hlong]
    cases h with
    | same hrun hout =>
      refine .ahead s.run (by rw [hrun, List.append_nil]) hlong ?_
      rw [visible_append, hrun, hout]
    | ahead front hrun hfront hout =>
      have hnul := htame.nul_of_ahead (hwrun.symm.trans hrun) hfront (Or.inr hlong)
      refine .ahead _ (List.append_nil _).symm ?_ ?_
      · rw [hrun, List.length_append]
        omega
      · rw [visible_append, hout, visible_take_of_nul hnul, List.append_nil]
  · rw [Scan.cut_short hlong]
    exact h

/-- Reading chunks keeps the scanners beside each other. -/
theorem Beside.chunks {chunks : List (List β)} : ∀ {s : Scan β} {a : List β},
    Beside nul lim s (a.foldl (Scan.read sep lim) Scan.start) →
    Tame sep nul lim (a ++ chunks.flatten) →
    Beside nul lim (chunks.foldl (Scan.chunk sep lim) s)
      ((a ++ chunks.flatten).foldl (Scan.read sep lim) Scan.start) := by
  induction chunks with
  | nil => intro s a h _; simpa using h
  | cons data rest ih =>
    intro s a h htame
    rw [List.flatten_cons] at htame
    have hread := h.foldl htame
    rw [← List.append_assoc] at htame
    have hrest := ih (hread.cut htame) htame
    rw [List.append_assoc] at hrest
    rwa [List.foldl_cons, List.flatten_cons]

/-- A run is under the limit at the end of a chunk. -/
theorem Scan.chunk_run_le (s : Scan β) (data : List β) :
    ¬ lim < (s.chunk sep lim data).run.length := by
  unfold Scan.chunk
  by_cases h : lim < (data.foldl (Scan.read sep lim) s).run.length
  · rw [Scan.cut_long h]
    exact Nat.not_lt_zero _
  · rw [Scan.cut_short h]
    exact h

theorem Scan.chunks_run_le {chunks : List (List β)} : ∀ {s : Scan β}, ¬ lim < s.run.length →
    ¬ lim < (chunks.foldl (Scan.chunk sep lim) s).run.length := by
  induction chunks with
  | nil => intro s h; exact h
  | cons data rest ih => intro s _; exact ih (s.chunk_run_le data)

/-- Whatever the chunks of a tame stream, the reader sees what one chunk gives. -/
theorem Tame.visible_eq {chunks : List (List β)} (h : Tame sep nul lim chunks.flatten) :
    visible nul (chunks.foldl (Scan.chunk sep lim) Scan.start).out
      = visible nul (Scan.start.chunk sep lim chunks.flatten).out := by
  have hbeside := Beside.chunks (s := Scan.start) (a := []) (.same rfl rfl) h
  have hshort : ¬ lim < (chunks.foldl (Scan.chunk sep lim) Scan.start).run.length :=
    Scan.chunks_run_le (Nat.not_lt_zero _)
  rw [List.nil_append] at hbeside
  unfold Scan.chunk
  cases hbeside with
  | same hrun hout =>
    rw [Scan.cut_short (by rw [← hrun]; exact hshort)]
    exact hout
  | ahead front hrun hfront hout =>
    have hlong : lim < (chunks.flatten.foldl (Scan.read sep lim) Scan.start).run.length := by
      rw [hrun, List.length_append]
      omega
    rw [Scan.cut_long hlong, visible_append]
    exact hout

-- ============================================================================
-- A stream that is not tame shows a cut
-- ============================================================================

variable (sep lim) in
/-- The scanner only adds to its output, and what it adds depends on the run. -/
theorem Scan.foldl_read_out (data run : List β) (out : List (List β)) :
    (data.foldl (Scan.read sep lim) ⟨run, out⟩).out
        = out ++ (data.foldl (Scan.read sep lim) ⟨run, []⟩).out ∧
      (data.foldl (Scan.read sep lim) ⟨run, out⟩).run
        = (data.foldl (Scan.read sep lim) ⟨run, []⟩).run := by
  induction data using List.reverseRecOn with
  | nil => exact ⟨(List.append_nil _).symm, rfl⟩
  | append_singleton data b ih =>
    simp only [List.foldl_append, List.foldl_cons, List.foldl_nil]
    cases hb : sep b with
    | true =>
      rw [Scan.read_sep hb, Scan.read_sep hb, ih.1, ih.2, List.append_assoc]
      exact ⟨rfl, rfl⟩
    | false =>
      rw [Scan.read_other hb, Scan.read_other hb, ih.1, ih.2]
      exact ⟨rfl, rfl⟩

theorem Scan.chunk_out (data run : List β) (out : List (List β)) :
    ((⟨run, out⟩ : Scan β).chunk sep lim data).out
      = out ++ ((⟨run, []⟩ : Scan β).chunk sep lim data).out := by
  obtain ⟨hout, hrun⟩ := Scan.foldl_read_out sep lim data run out
  unfold Scan.chunk Scan.cut
  rw [hrun]
  split
  · simp only [hout, List.append_assoc]
  · exact hout

/-- A first run `m` that ends, or is over the limit, gives one line: the front
    of what was collected before and of `m`, and what follows does not depend
    on it. -/
theorem Scan.chunk_first_run {b : β} {c : List β} (hb : sep b = false)
    (hend : (∃ x ∈ c, sep x = true) ∨ lim < (b :: c).length) :
    ∃ m tail, (b :: m) <+: (b :: c) ∧ ∀ run : List β,
      ((⟨run, []⟩ : Scan β).chunk sep lim (b :: c)).out
        = (run ++ b :: m).take lim :: tail := by
  by_cases hsep : ∃ x ∈ c, sep x = true
  · -- split `c` at its first separator
    have hsplit : c = c.takeWhile (! sep ·) ++ c.dropWhile (! sep ·) :=
      (List.takeWhile_append_dropWhile).symm
    cases hdrop : c.dropWhile (! sep ·) with
    | nil =>
      obtain ⟨x, hx, hxs⟩ := hsep
      have := List.dropWhile_eq_nil_iff.mp hdrop x hx
      rw [hxs] at this
      exact absurd this Bool.false_ne_true
    | cons x rest =>
      have hx : sep x = true := by
        have := List.head_dropWhile_not (! sep ·) (l := c) (by rw [hdrop]; exact List.cons_ne_nil _ _)
        simpa [hdrop] using this
      rw [hdrop] at hsplit
      refine ⟨c.takeWhile (! sep ·), ((⟨[], []⟩ : Scan β).chunk sep lim rest).out,
        ⟨x :: rest, by rw [List.cons_append, ← hsplit]⟩, ?_⟩
      intro run
      have hfirst : (b :: c).foldl (Scan.read sep lim) ⟨run, []⟩
          = rest.foldl (Scan.read sep lim) ⟨[], [(run ++ b :: c.takeWhile (! sep ·)).take lim]⟩ := by
        have hrun : ∀ y ∈ b :: c.takeWhile (! sep ·), sep y = false := by
          intro y hy
          rcases List.mem_cons.mp hy with rfl | hy
          · exact hb
          · simpa using List.mem_takeWhile_imp hy
        conv_lhs => rw [hsplit]
        rw [← List.cons_append, List.foldl_append, Scan.foldl_read_other hrun, List.foldl_cons,
          Scan.read_sep hx]
        rfl
      have hchunk : ((⟨run, []⟩ : Scan β).chunk sep lim (b :: c))
          = (⟨[], [(run ++ b :: c.takeWhile (! sep ·)).take lim]⟩ : Scan β).chunk sep lim rest := by
        unfold Scan.chunk
        rw [hfirst]
      rw [hchunk, Scan.chunk_out]
      rfl
  · -- no separator: the run is over the limit at the end of the chunk
    have hlong : lim < (b :: c).length := hend.resolve_left hsep
    refine ⟨c, [], List.prefix_rfl, fun run => ?_⟩
    have hall : ∀ x ∈ b :: c, sep x = false := by
      intro x hx
      rcases List.mem_cons.mp hx with rfl | hx
      · exact hb
      · cases hxs : sep x with
        | false => rfl
        | true => exact absurd ⟨x, hx, hxs⟩ hsep
    unfold Scan.chunk
    rw [Scan.foldl_read_other hall, Scan.cut_long]
    · rfl
    · rw [List.length_append]
      exact Nat.lt_of_lt_of_le hlong (Nat.le_add_left _ _)

/-- Cutting a stream where it is not tame adds a line. -/
theorem visible_ne_of_not_tame {a : List β} {b : β} {c : List β} (hlim : 0 < lim)
    (hb : sep b = false) (hnul : nul b = false) (hlong : lim < (a.rtakeWhile (! sep ·)).length)
    (hend : (∃ x ∈ c, sep x = true) ∨ lim < (b :: c).length) :
    visible nul ([a, b :: c].foldl (Scan.chunk sep lim) Scan.start).out
      ≠ visible nul (Scan.start.chunk sep lim (a ++ b :: c)).out := by
  obtain ⟨m, tail, -, hline⟩ := Scan.chunk_first_run hb hend
  have hwrun := Scan.run_eq_rtakeWhile sep lim a
  set w := a.foldl (Scan.read sep lim) Scan.start with hw
  have hlen : lim < w.run.length := by rw [hwrun]; exact hlong
  have hfirst : Scan.start.chunk sep lim a = ⟨[], w.out ++ [w.run.take lim]⟩ :=
    Scan.cut_long hlen
  have hcut : ([a, b :: c].foldl (Scan.chunk sep lim) Scan.start).out
      = w.out ++ [w.run.take lim] ++ (b :: m).take lim :: tail := by
    rw [List.foldl_cons, List.foldl_cons, List.foldl_nil, hfirst, Scan.chunk_out, hline]
    rfl
  have hwhole : (Scan.start.chunk sep lim (a ++ b :: c)).out
      = w.out ++ w.run.take lim :: tail := by
    have hsplit : Scan.start.chunk sep lim (a ++ b :: c) = w.chunk sep lim (b :: c) := by
      unfold Scan.chunk
      rw [List.foldl_append, ← hw]
    rw [hsplit, show w = ⟨w.run, w.out⟩ from rfl, Scan.chunk_out, hline,
      List.take_append_of_le_length (Nat.le_of_lt hlen)]
  -- the extra line starts with `b`, which is seen
  have hseen : (visible nul [(b :: m).take lim]).length = 1 := by
    obtain ⟨n, rfl⟩ : ∃ n, lim = n + 1 := ⟨lim - 1, by omega⟩
    simp [visible, hnul]
  intro heq
  have hcount := congrArg List.length heq
  rw [hcut, hwhole] at hcount
  simp only [visible_append, visible_cons _ tail, List.length_append] at hcount
  omega

/-- The chunking of a stream is invisible exactly when the stream is tame. -/
theorem chunking_visible_iff (hlim : 0 < lim) (s : List β) :
    (∀ chunks : List (List β), (∀ c ∈ chunks, c ≠ []) → chunks.flatten = s →
        visible nul (chunks.foldl (Scan.chunk sep lim) Scan.start).out
          = visible nul (Scan.start.chunk sep lim s).out)
      ↔ Tame sep nul lim s := by
  constructor
  · intro hall a b c hs hb hlong hend
    by_contra hnul
    have hne : a ≠ [] := by
      rintro rfl
      exact absurd hlong (Nat.not_lt_zero _)
    refine visible_ne_of_not_tame hlim hb (Bool.eq_false_iff.mpr hnul) hlong hend ?_
    rw [← hs]
    refine hall [a, b :: c] ?_ (by simp [hs])
    intro d hd
    rcases List.mem_cons.mp hd with rfl | hd
    · exact hne
    · obtain rfl := List.mem_singleton.mp hd
      exact List.cons_ne_nil _ _
  · rintro htame chunks - rfl
    exact htame.visible_eq

end Bluebox.Lib.Framing
