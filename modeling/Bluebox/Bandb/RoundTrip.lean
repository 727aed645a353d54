/-
  Bluebox.Bandb.RoundTrip

  The way of a ban into the database, back to the server, and out of the database.

  The format has no quoting.  A mask or an operator name that is empty, has a blank
  in it or begins with a colon is read as something else, a bar in the reason is
  taken for the one in front of the oper reason, and a line of 511 bytes fits the
  buffer of `bandb_add` but loses its last byte in the line buffer.  The server also
  keeps operator names by case-insensitive comparison.  Every other ban makes the way
  unchanged.
-/
import Bluebox.Bandb.Masks
import Bluebox.Bandb.Params

namespace Bluebox.Bandb

open Bluebox.Lib Bluebox.Linebuf

-- ============================================================================
-- Bans
-- ============================================================================

/-- The arguments of `bandb_add`.  Only K-lines have a second mask. -/
structure Ban where
  type : BanType
  mask1 : Bytes
  mask2 : Bytes
  oper : Bytes
  time : Int
  perm : Int
  reason : Bytes
  operReason : Bytes
  mask2_nil : type ≠ .kline → mask2 = []
  mask1_noNul : NoNul mask1
  mask2_noNul : NoNul mask2
  oper_noNul : NoNul oper
  reason_line : ∀ b ∈ reason, isChopped b = false
  operReason_line : ∀ b ∈ operReason, isChopped b = false

namespace Ban

variable (b : Ban)

/-- Reason and oper reason as one text. -/
def fullReason : Bytes := if b.operReason = [] then b.reason else b.reason ++ 124 :: b.operReason

/-- The masks that the line holds. -/
def masks : List Bytes := b.mask1 :: if b.mask2 = [] then [] else [b.mask2]

/-- The words of the line. -/
def words : List Bytes := [b.type.letter] :: b.masks ++ [b.oper, fmtInt b.time, fmtInt b.perm]

/-- The composed line. -/
def line : Bytes := spaced b.words (58 :: b.fullReason)

/-- The line that `bandb_add` writes. -/
def addLine : Bytes :=
  Bandb.addLine b.type b.mask1 b.mask2 b.oper b.time b.perm b.reason b.operReason

/-- The line that `bandb_del` writes. -/
def delLine : Bytes := Bandb.delLine b.type b.mask1 b.mask2

/-- The row of the ban. -/
def row : Row := ⟨b.mask1, b.mask2, b.oper, fmtInt b.time, fmtInt b.perm, b.fullReason⟩

/-- The ban in the server. -/
def conf : Conf :=
  let host := if b.type = .kline then b.mask2 else b.mask1
  ⟨statusOf b.type host, if b.type = .kline then some b.mask1 else none, host, b.oper, b.reason,
    if b.operReason = [] then none else some b.operReason⟩

end Ban

/-- The ban makes its way: into the database, back to the server with `names` in its
    table of operator names, and out of the database, whatever else is there and
    however the pipe cuts the lines. -/
structure RoundTrip (names : List Bytes) (b : Ban) : Prop where
  stored : ∀ db chunks, Carries chunks b.addLine →
    parseRequests db (rbHelperReads chunks) = db.insert b.type b.row
  listed : ∀ chunks, Carries chunks (listLine b.type b.row) →
    (rbHelperReads chunks).map (bandbParseBan names) = [some b.conf]
  deleted : ∀ db chunks, Carries chunks b.delLine →
    parseRequests db (rbHelperReads chunks) = db.delete b.type b.mask1 b.mask2

/-- A word without CR and LF. -/
def LineWord (w : Bytes) : Prop := Word w ∧ ∀ x ∈ w, isCrlf x = false

theorem all_not_iff {p : UInt8 → Bool} {s : Bytes} :
    s.all (! p ·) = true ↔ ∀ x ∈ s, p x = false := by
  simp

instance (w : Bytes) : Decidable (LineWord w) :=
  decidable_of_iff (Word w ∧ w.all (! isCrlf ·) = true) (and_congr_right fun _ => all_not_iff)

/-- The masks and the operator name can stand in a line. -/
structure Ban.Wordy (b : Ban) : Prop where
  mask1 : LineWord b.mask1
  mask2 : b.type = .kline → LineWord b.mask2
  oper : LineWord b.oper

/-- The ban fits the format, and no other spelling of the operator's name is in
    use. -/
structure Ban.Plain (names : List Bytes) (b : Ban) : Prop extends b.Wordy where
  spelling : operhashAdd names b.oper = b.oper
  no_bar : 124 ∉ b.reason
  fits : b.line.length ≤ 510

-- ============================================================================
-- The pipe
-- ============================================================================

theorem rbHelperWrite_crlf {text buf : Bytes} (h : rbHelperWrite text = some buf) :
    ∃ kept, buf = kept ++ [13, 10] ∧ kept.length ≤ 510 := by
  obtain ⟨⟨buf, len⟩, hfin, rfl⟩ := Option.map_eq_some_iff.mp h
  unfold finishLine at hfin
  split at hfin
  · obtain ⟨rfl, -⟩ := Prod.mk.inj (Option.some.inj hfin)
    exact ⟨_, rfl, List.length_take_le _ _⟩
  · rename_i hlen
    split at hfin
    · obtain ⟨rfl, -⟩ := Prod.mk.inj (Option.some.inj hfin)
      exact ⟨[], rfl, Nat.zero_le _⟩
    · simp only at hfin
      split at hfin
      · cases hfin
      · obtain ⟨rfl, -⟩ := Prod.mk.inj (Option.some.inj hfin)
        refine ⟨_, rfl, ?_⟩
        have := (List.rdropWhile_prefix isChopped (l := text)).length_le
        omega

/-- No line is overlong, so the chunks do not matter. -/
theorem rbHelperReads_eq {chunks : List Bytes} {text : Bytes} (h : Carries chunks text) :
    rbHelperReads chunks = streamLines chunks.flatten := by
  obtain ⟨hne, hwrite⟩ := h
  obtain ⟨kept, hkept, hlen⟩ := rbHelperWrite_crlf hwrite
  refine ((chunksHidden_iff chunks.flatten).mpr ?_).2 chunks hne rfl
  intro a x c hsplit hx hlong _
  exfalso
  have ha : a.length < kept.length := by
    by_contra hge
    rw [hkept] at hsplit
    have hmem : x ∈ ([13, 10] : Bytes) := by
      have hx' : (kept ++ [13, 10])[a.length]? = some x := by
        rw [hsplit, List.getElem?_append_right (Nat.le_refl _), Nat.sub_self]
        rfl
      rw [List.getElem?_append_right (by omega)] at hx'
      exact List.mem_of_getElem? hx'
    obtain rfl | hmem := List.mem_cons.mp hmem
    · cases hx
    · rw [List.mem_singleton.mp hmem] at hx
      cases hx
  have := (List.rtakeWhile_suffix (! isCrlf ·) (l := a)).length_le
  omega

theorem splitOnP_no_sep {p : UInt8 → Bool} (s : Bytes) :
    ∀ r ∈ s.splitOnP p, ∀ x ∈ r, p x = false := by
  induction s with
  | nil =>
    intro r hr x hx
    rw [List.splitOnP_nil, List.mem_singleton] at hr
    rw [hr] at hx
    cases hx
  | cons a s ih =>
    intro r hr x hx
    rw [List.splitOnP_cons_eq_if_modifyHead] at hr
    split at hr
    · obtain rfl | hr := List.mem_cons.mp hr
      · cases hx
      · exact ih r hr x hx
    · rename_i ha
      obtain ⟨l, ls, hls⟩ := List.exists_cons_of_ne_nil (List.splitOnP_ne_nil p s)
      rw [hls, List.modifyHead_cons] at hr
      rw [hls] at ih
      obtain rfl | hr := List.mem_cons.mp hr
      · obtain rfl | hx := List.mem_cons.mp hx
        · exact Bool.eq_false_iff.mpr ha
        · exact ih l List.mem_cons_self x hx
      · exact ih r (List.mem_cons_of_mem _ hr) x hx

/-- A line that is read has no CR or LF. -/
theorem streamLines_no_crlf {stream : Bytes} :
    ∀ l ∈ streamLines stream, ∀ x ∈ l, isCrlf x = false := by
  intro l hl x hx
  obtain ⟨hl, -⟩ := List.mem_filter.mp hl
  obtain ⟨r, hr, rfl⟩ := List.mem_map.mp hl
  have hmem : x ∈ r := List.mem_of_mem_take ((List.takeWhile_sublist _).subset hx)
  have hrun : r ∈ stream.splitOnP isCrlf := by
    obtain hr | hr := List.mem_append.mp hr
    · exact List.dropLast_subset _ hr
    · obtain ⟨hr, -⟩ := List.mem_filter.mp hr
      exact List.mem_of_getLast? (Option.mem_toList.mp hr)
  exact splitOnP_no_sep stream r hrun x hmem

/-- A text without CR, LF and NUL is written up to the limit. -/
theorem rbHelperWrite_of_line {text : Bytes} (hne : text ≠ [])
    (h : ∀ x ∈ text, isChopped x = false) : rbHelperWrite text = some (text.take 510 ++ [13, 10]) := by
  have hpos : 0 < text.length := List.length_pos_iff.mpr hne
  unfold rbHelperWrite finishLine
  by_cases hlong : text.length > 510
  · rw [if_pos hlong]
    rfl
  · have hkept : text.rdropWhile isChopped = text :=
      List.rdropWhile_eq_self_iff.mpr fun hl =>
        Bool.eq_false_iff.mp (h _ (List.getLast_mem hl))
    rw [if_neg hlong, if_neg (by omega), hkept, if_neg hne, List.take_of_length_le (by omega)]
    rfl

theorem isCrlf_of_isChopped {x : UInt8} (h : isChopped x = false) : isCrlf x = false ∧ x ≠ 0 := by
  unfold isChopped at h
  rw [Bool.or_eq_false_iff] at h
  exact ⟨h.1, by simpa using h.2⟩

theorem streamLines_line {text : Bytes} (hne : text ≠ []) (hlen : text.length ≤ 510)
    (h : ∀ x ∈ text, isChopped x = false) : streamLines (text ++ [13, 10]) = [text] := by
  have hcrlf : ∀ x ∈ text, isCrlf x = false := fun x hx => (isCrlf_of_isChopped (h x hx)).1
  have hsplit : (text ++ [13, 10]).splitOnP isCrlf = [text, [], []] := by
    rw [List.splitOnP_append_cons_of_forall_mem hcrlf 13 rfl]
    rfl
  have htext : cText text = text := by
    refine List.takeWhile_eq_self_iff.mpr fun x hx => ?_
    simpa using (isCrlf_of_isChopped (h x hx)).2
  unfold streamLines Framing.runs
  rw [hsplit]
  have hnil : cText [] = [] := rfl
  simp [List.take_of_length_le hlen, htext, hne, hnil]

/-- What is read of a written line. -/
theorem rbHelperReads_of_line {chunks : List Bytes} {text : Bytes} (hc : Carries chunks text)
    (hne : text ≠ []) (h : ∀ x ∈ text, isChopped x = false) :
    rbHelperReads chunks = [text.take 510] := by
  have hwrite := hc.2
  rw [rbHelperWrite_of_line hne h] at hwrite
  rw [rbHelperReads_eq hc, ← Option.some.inj hwrite]
  refine streamLines_line ?_ (List.length_take_le _ _) fun x hx => h x (List.mem_of_mem_take hx)
  obtain ⟨x, rest, rfl⟩ := List.exists_cons_of_ne_nil hne
  exact List.cons_ne_nil _ _

theorem exists_carries {text : Bytes} {x : UInt8} (htext : x ∈ text) (hx : isChopped x = false) :
    ∃ buf, Carries [buf] text := by
  have hkept : text.rdropWhile isChopped ≠ [] := by
    intro hnil
    have := List.rdropWhile_eq_nil_iff.mp hnil x htext
    rw [hx] at this
    cases this
  have hwrite : ∃ buf, rbHelperWrite text = some buf := by
    unfold rbHelperWrite finishLine
    split
    · exact ⟨_, rfl⟩
    · split
      · exact ⟨_, rfl⟩
      · simp only [if_neg hkept]
        exact ⟨_, rfl⟩
  obtain ⟨buf, hbuf⟩ := hwrite
  refine ⟨buf, fun c hc => ?_, by rw [hbuf, List.flatten_singleton]⟩
  obtain ⟨kept, rfl, -⟩ := rbHelperWrite_crlf hbuf
  rw [List.mem_singleton.mp hc]
  exact List.append_ne_nil_of_right_ne_nil _ (List.cons_ne_nil _ _)

-- ============================================================================
-- The composed lines
-- ============================================================================

/-- Texts that are appended one after the other are cut as a whole. -/
theorem snprintfAppend_take (s t : Bytes) (size : Nat) :
    snprintfAppend (s.take (size - 1)) size t = (s ++ t).take (size - 1) := by
  rw [snprintfAppend, List.take_append, List.length_take]
  congr 2
  omega

theorem snprintfAppend_nil (t : Bytes) (size : Nat) :
    snprintfAppend [] size t = t.take (size - 1) := by
  have h := snprintfAppend_take [] t size
  rwa [List.take_nil, List.nil_append] at h

theorem spaced_append (ws ws' : List Bytes) (last : Bytes) :
    spaced (ws ++ ws') last = spaced ws (spaced ws' last) := by
  simp only [spaced, List.foldr_append]

theorem spaced_length (ws : List Bytes) (last : Bytes) :
    (spaced ws last).length = (ws.map fun w => w.length + 1).sum + last.length := by
  induction ws with
  | nil => simp [spaced]
  | cons w ws ih =>
    have hline : spaced (w :: ws) last = w ++ 32 :: spaced ws last := rfl
    rw [hline, List.length_append, List.length_cons, ih, List.map_cons, List.sum_cons]
    omega

theorem mem_spaced {ws : List Bytes} {last : Bytes} {x : UInt8} (h : x ∈ spaced ws last) :
    (∃ w ∈ ws, x ∈ w) ∨ x = 32 ∨ x ∈ last := by
  induction ws with
  | nil => exact Or.inr (Or.inr h)
  | cons w ws ih =>
    obtain hx | hx := List.mem_append.mp h
    · exact Or.inl ⟨w, List.mem_cons_self, hx⟩
    · obtain rfl | hx := List.mem_cons.mp hx
      · exact Or.inr (Or.inl rfl)
      · obtain ⟨w', hw', hx⟩ | hx := ih hx
        · exact Or.inl ⟨w', List.mem_cons_of_mem _ hw', hx⟩
        · exact Or.inr hx

variable {b : Ban}

theorem Ban.line_eq (b : Ban) : b.line = b.type.letter :: 32 :: (b.mask1 ++ 32 ::
    ((if b.mask2 = [] then [] else b.mask2 ++ [32]) ++
      (b.oper ++ 32 :: (fmtInt b.time ++ 32 :: (fmtInt b.perm ++ 32 :: 58 :: b.fullReason))))) := by
  unfold Ban.line Ban.words Ban.masks
  split
  · simp [spaced]
  · simp [spaced]

/-- `bandb_add` writes the composed line, cut to its buffer. -/
theorem Ban.addLine_take (b : Ban) : b.addLine = b.line.take (bufSize - 1) := by
  rw [b.line_eq]
  unfold Ban.addLine Bandb.addLine Ban.fullReason
  simp only [snprintfAppend_nil]
  by_cases h2 : b.mask2 = []
  · by_cases ho : b.operReason = []
    · simp [h2, ho, snprintfAppend_take]
    · simp [h2, ho, snprintfAppend_take]
  · by_cases ho : b.operReason = []
    · simp [h2, ho, snprintfAppend_take]
    · simp [h2, ho, snprintfAppend_take]

theorem Ban.addLine_eq (h : b.line.length < bufSize) : b.addLine = b.line := by
  rw [b.addLine_take, List.take_of_length_le (by omega)]

theorem lineWord_letter (type : BanType) : LineWord [type.letter] ∧ LineWord [type.delLetter] := by
  cases type <;> decide

theorem lineWord_fmtInt (n : Int) : LineWord (fmtInt n) ∧ NoNul (fmtInt n) := by
  have hdigit : ∀ x : UInt8, isDigit x = true →
      x ≠ 32 ∧ x ≠ 58 ∧ isCrlf x = false ∧ x ≠ 0 := by
    intro x hx
    refine ⟨?_, ?_, ?_, ?_⟩
    · rintro rfl; cases hx
    · rintro rfl; cases hx
    · have h13 : x ≠ 13 := by rintro rfl; cases hx
      have h10 : x ≠ 10 := by rintro rfl; cases hx
      simp [isCrlf, h13, h10]
    · rintro rfl; cases hx
  have hall : ∀ x ∈ fmtInt n, x ≠ 32 ∧ x ≠ 58 ∧ isCrlf x = false ∧ x ≠ 0 := by
    intro x hx
    unfold fmtInt at hx
    split at hx
    · obtain rfl | hx := List.mem_cons.mp hx
      · decide
      · exact hdigit x (decDigits_isDigit _ _ x hx)
    · exact hdigit x (decDigits_isDigit _ _ x hx)
  have hne : fmtInt n ≠ [] := by
    unfold fmtInt
    split
    · exact List.cons_ne_nil _ _
    · exact decDigits_ne_nil _ _
  refine ⟨⟨⟨hne, fun x hx => (hall x hx).1, fun hhead => ?_⟩, fun x hx => (hall x hx).2.2.1⟩,
    fun h0 => (hall 0 h0).2.2.2 rfl⟩
  exact (hall 58 (List.mem_of_head? hhead)).2.1 rfl

theorem Ban.Wordy.masks (h : b.Wordy) :
    b.masks = if b.type = .kline then [b.mask1, b.mask2] else [b.mask1] := by
  unfold Ban.masks
  by_cases hk : b.type = .kline
  · rw [if_pos hk, if_neg (h.mask2 hk).1.ne_nil]
  · rw [if_neg hk, if_pos (b.mask2_nil hk)]

theorem Ban.Wordy.mask_lineWord (h : b.Wordy) : ∀ w ∈ b.masks, LineWord w ∧ NoNul w := by
  intro w hw
  rw [h.masks] at hw
  split at hw
  · rename_i hk
    obtain rfl | hw := List.mem_cons.mp hw
    · exact ⟨h.mask1, b.mask1_noNul⟩
    · rw [List.mem_singleton.mp hw]
      exact ⟨h.mask2 hk, b.mask2_noNul⟩
  · rw [List.mem_singleton.mp hw]
    exact ⟨h.mask1, b.mask1_noNul⟩

theorem Ban.Wordy.word (h : b.Wordy) : ∀ w ∈ b.words, LineWord w ∧ NoNul w := by
  intro w hw
  obtain hw | hw := List.mem_append.mp hw
  · obtain rfl | hw := List.mem_cons.mp hw
    · refine ⟨(lineWord_letter b.type).1, ?_⟩
      cases b.type <;> decide
    · exact h.mask_lineWord w hw
  · simp only [List.mem_cons, List.not_mem_nil, or_false] at hw
    obtain rfl | rfl | rfl := hw
    · exact ⟨h.oper, b.oper_noNul⟩
    · exact lineWord_fmtInt _
    · exact lineWord_fmtInt _

theorem Ban.fullReason_line (b : Ban) : ∀ x ∈ b.fullReason, isChopped x = false := by
  intro x hx
  unfold Ban.fullReason at hx
  split at hx
  · exact b.reason_line x hx
  · obtain hx | hx := List.mem_append.mp hx
    · exact b.reason_line x hx
    · obtain rfl | hx := List.mem_cons.mp hx
      · rfl
      · exact b.operReason_line x hx

theorem LineWord.not_chopped {w : Bytes} (h : LineWord w ∧ NoNul w) :
    ∀ x ∈ w, isChopped x = false := by
  intro x hx
  have h0 : x ≠ 0 := fun h0 => h.2 (h0 ▸ hx)
  have hcrlf := h.1.2 x hx
  unfold isChopped
  unfold isCrlf at hcrlf
  rw [hcrlf, Bool.false_or]
  simpa using h0

/-- A line of such words and a reason travels through the pipe. -/
theorem spaced_line {ws : List Bytes} {last : Bytes} (hws : ∀ w ∈ ws, LineWord w ∧ NoNul w)
    (hlast : ∀ x ∈ last, isChopped x = false) : ∀ x ∈ spaced ws last, isChopped x = false := by
  intro x hx
  obtain ⟨w, hw, hx⟩ | rfl | hx := mem_spaced hx
  · exact LineWord.not_chopped (hws w hw) x hx
  · rfl
  · exact hlast x hx

theorem colon_line {r : Bytes} (h : ∀ x ∈ r, isChopped x = false) :
    ∀ x ∈ 58 :: r, isChopped x = false := by
  intro x hx
  obtain rfl | hx := List.mem_cons.mp hx
  · rfl
  · exact h x hx

theorem find_letter (type : BanType) :
    (banTypes.find? fun t => t.letter == type.letter) = some type := by
  cases type <;> decide

theorem find_delLetter (type : BanType) :
    (banTypes.find? fun t => t.letter == type.delLetter) = none ∧
      (banTypes.find? fun t => t.delLetter == type.delLetter) = some type := by
  cases type <;> decide

theorem Ban.words_length (b : Ban) : b.words.length ≤ 6 := by
  unfold Ban.words Ban.masks
  split <;> simp

/-- The helper reads the words of a line and its reason. -/
theorem parseRequest_line (h : b.Wordy) (db : Db) (r : Bytes) :
    (parseRequest db (spaced b.words (58 :: r))).1
      = db.insert b.type { b.row with reason := r } := by
  have hparv : rbStringToArray (spaced b.words (58 :: r)) helperMaxpara = b.words ++ [r] :=
    rbStringToArray_spaced (fun w hw => (h.word w hw).1.1) (.colon r)
      (by have := b.words_length; unfold helperMaxpara; omega)
  have hhead : ((b.words ++ [r]).headD []).headD 0 = b.type.letter := rfl
  have hban : parseBan b.type (b.words ++ [r]) = some { b.row with reason := r } := by
    unfold parseBan Ban.words Ban.row
    rw [h.masks]
    by_cases hk : b.type = .kline
    · rw [if_pos hk, if_pos hk]
      rfl
    · rw [if_neg hk, if_neg hk, b.mask2_nil hk]
      rfl
  unfold parseRequest
  simp only [hparv, hhead, find_letter, hban]

-- ============================================================================
-- Into the database
-- ============================================================================

theorem parseRequests_singleton (db : Db) (line : Bytes) :
    parseRequests db [line] = (parseRequest db line).1 := rfl

theorem Ban.line_ne_nil (b : Ban) : b.line ≠ [] := by
  rw [b.line_eq]
  exact List.cons_ne_nil _ _

theorem Ban.Wordy.reads (h : b.Wordy) (hlen : b.line.length < bufSize) {chunks : List Bytes}
    (hc : Carries chunks b.addLine) : rbHelperReads chunks = [b.line.take 510] := by
  rw [Ban.addLine_eq hlen] at hc
  exact rbHelperReads_of_line hc b.line_ne_nil
    (spaced_line h.word (colon_line b.fullReason_line))

theorem Ban.Plain.stored {names : List Bytes} (h : b.Plain names) (db : Db) {chunks : List Bytes}
    (hc : Carries chunks b.addLine) :
    parseRequests db (rbHelperReads chunks) = db.insert b.type b.row := by
  have hlen : b.line.length < bufSize := Nat.lt_of_le_of_lt h.fits (by decide)
  rw [h.toWordy.reads hlen hc, List.take_of_length_le h.fits, parseRequests_singleton]
  exact parseRequest_line h.toWordy db b.fullReason

theorem Db.mem_insert {db : Db} {t type : BanType} {new row : Row}
    (h : row ∈ db.insert t new type) : row ∈ db type ∨ type = t ∧ row = new := by
  unfold Db.insert at h
  by_cases htype : type = t
  · subst htype
    rw [Function.update_self] at h
    obtain h | h := List.mem_append.mp h
    · exact Or.inl h
    · exact Or.inr ⟨rfl, List.mem_singleton.mp h⟩
  · rw [Function.update_of_ne htype] at h
    exact Or.inl h

theorem Db.mem_delete {db : Db} {t type : BanType} {mask1 mask2 : Bytes} {row : Row}
    (h : row ∈ db.delete t mask1 mask2 type) : row ∈ db type := by
  unfold Db.delete at h
  by_cases htype : type = t
  · subst htype
    rw [Function.update_self] at h
    exact (List.mem_filter.mp h).1
  · rwa [Function.update_of_ne htype] at h

/-- A row that a request inserts stands in its line. -/
theorem parseRequest_row {db : Db} {line : Bytes} {type : BanType} {row : Row}
    (h : row ∈ (parseRequest db line).1 type) :
    row ∈ db type ∨ parseBan type (rbStringToArray line helperMaxpara) = some row := by
  unfold parseRequest at h
  dsimp only at h
  split at h
  · split at h
    · rename_i t _ _ new hnew
      obtain h | ⟨rfl, rfl⟩ := Db.mem_insert h
      · exact Or.inl h
      · exact Or.inr hnew
    · exact Or.inl h
  · split at h
    · split at h
      · exact Or.inl (Db.mem_delete h)
      · exact Or.inl h
    · split at h
      · exact Or.inl h
      · exact Or.inl h

theorem parseRequests_row {type : BanType} {row : Row} (lines : List Bytes) : ∀ {db : Db},
    row ∈ parseRequests db lines type →
    row ∈ db type ∨
      ∃ line ∈ lines, parseBan type (rbStringToArray line helperMaxpara) = some row := by
  induction lines with
  | nil => intro db h; exact Or.inl h
  | cons line lines ih =>
    intro db h
    have hrest : row ∈ parseRequests (parseRequest db line).1 lines type := h
    obtain h | ⟨l, hl, h⟩ := ih hrest
    · obtain h | h := parseRequest_row h
      · exact Or.inl h
      · exact Or.inr ⟨line, List.mem_cons_self, h⟩
    · exact Or.inr ⟨l, List.mem_cons_of_mem _ hl, h⟩

theorem parseBan_mem {type : BanType} {parv : List Bytes} {row : Row}
    (h : parseBan type parv = some row) :
    row.mask1 ∈ parv.dropLast ∧ row.oper ∈ parv.dropLast ∧
      (type = .kline → row.mask2 ∈ parv.dropLast) := by
  unfold parseBan at h
  split at h
  · split at h
    · obtain rfl := Option.some.inj h
      simp
    · cases h
  · rename_i hk
    split at h
    · obtain rfl := Option.some.inj h
      simp [hk]
    · cases h

/-- What is inserted was made of words. -/
theorem wordy_of_stored {chunks : List Bytes} (hc : Carries chunks b.addLine)
    (h : b.row ∈ parseRequests (fun _ => []) (rbHelperReads chunks) b.type) : b.Wordy := by
  obtain h | ⟨line, hline, hban⟩ := parseRequests_row _ h
  · cases h
  rw [rbHelperReads_eq hc] at hline
  have hword : ∀ w ∈ (rbStringToArray line helperMaxpara).dropLast, LineWord w := by
    intro w hw
    obtain ⟨hword, hmem⟩ := rbStringToArray_dropLast w hw
    exact ⟨hword, fun x hx => streamLines_no_crlf line hline x (hmem x hx)⟩
  obtain ⟨h1, h2, h3⟩ := parseBan_mem hban
  exact ⟨hword _ h1, fun hk => hword _ (h3 hk), hword _ h2⟩

theorem spaced_dropLast (ws : List Bytes) {last : Bytes} (hlast : last ≠ []) :
    (spaced ws last).dropLast = spaced ws last.dropLast := by
  induction ws with
  | nil => rfl
  | cons w ws ih =>
    have hcons : ∀ l, spaced (w :: ws) l = (w ++ [32]) ++ spaced ws l := fun l => by simp [spaced]
    have hne : spaced ws last ≠ [] := by
      intro hnil
      have hzero := congrArg List.length hnil
      rw [spaced_length, List.length_nil] at hzero
      have := List.length_pos_iff.mpr hlast
      omega
    rw [hcons, hcons, List.dropLast_append_of_ne_nil hne, ih]

/-- The words without a reason do not make a row. -/
theorem parseBan_words (hw : b.Wordy) : parseBan b.type b.words = none := by
  unfold parseBan Ban.words
  rw [hw.masks]
  by_cases hk : b.type = .kline
  · rw [if_pos hk, if_pos hk]
    rfl
  · rw [if_neg hk, if_neg hk]
    rfl

/-- A line of 511 bytes loses its last one: the end of the reason, or the colon in
    front of it. -/
theorem fits_of_stored (hw : b.Wordy) (hlen : b.line.length < bufSize) {chunks : List Bytes}
    (hc : Carries chunks b.addLine)
    (h : b.row ∈ parseRequests (fun _ => []) (rbHelperReads chunks) b.type) :
    b.line.length ≤ 510 := by
  by_contra hlong
  have hlen511 : b.line.length = 511 := by unfold bufSize at hlen; omega
  have hcut : b.line.take 510 = spaced b.words (58 :: b.fullReason).dropLast := by
    rw [← spaced_dropLast _ (List.cons_ne_nil _ _), List.dropLast_eq_take]
    exact congrArg (b.line.take ·) (show 510 = b.line.length - 1 by omega)
  rw [hw.reads hlen hc, hcut, parseRequests_singleton] at h
  by_cases hr : b.fullReason = []
  · have hline : spaced b.words (58 :: b.fullReason).dropLast
        = spaced ([b.type.letter] :: b.masks ++ [b.oper, fmtInt b.time])
          (fmtInt b.perm ++ [32]) := by
      have hwords : b.words
          = ([b.type.letter] :: b.masks ++ [b.oper, fmtInt b.time]) ++ [fmtInt b.perm] := by
        simp [Ban.words]
      rw [hwords, spaced_append, hr]
      rfl
    have hparv : rbStringToArray (spaced b.words (58 :: b.fullReason).dropLast) helperMaxpara
        = b.words := by
      have hwords : ∀ w ∈ [b.type.letter] :: b.masks ++ [b.oper, fmtInt b.time], Word w := by
        intro w hmem
        refine (hw.word w ?_).1.1
        simp only [Ban.words, List.cons_append, List.mem_cons, List.mem_append,
          List.not_mem_nil, or_false] at hmem ⊢
        tauto
      rw [hline, rbStringToArray_blank hwords (lineWord_fmtInt b.perm).1.1
        (by have := b.words_length; simp [Ban.words] at this; simp [helperMaxpara]; omega)]
      simp [Ban.words]
    obtain h | h := parseRequest_row h
    · cases h
    · rw [hparv, parseBan_words hw] at h
      cases h
  · rw [List.dropLast_cons_of_ne_nil hr, parseRequest_line hw] at h
    obtain h | ⟨-, h⟩ := Db.mem_insert h
    · cases h
    · have hreason : b.fullReason = b.fullReason.dropLast := congrArg Row.reason h
      have := congrArg List.length hreason
      have hpos := List.length_pos_iff.mpr hr
      rw [List.length_dropLast] at this
      omega

-- ============================================================================
-- Back to the server
-- ============================================================================

/-- The line of `list_bans` for the ban. -/
theorem Ban.Wordy.listLine_eq (h : b.Wordy) (hlen : b.line.length < bufSize) :
    listLine b.type b.row = spaced ([b.type.letter] :: b.masks ++ [b.oper]) (58 :: b.fullReason) ∧
      (listLine b.type b.row).length ≤ 510 := by
  have hline := spaced_length b.words (58 :: b.fullReason)
  have hlist := spaced_length ([b.type.letter] :: b.masks ++ [b.oper]) (58 :: b.fullReason)
  have hpos : 0 < (fmtInt b.time).length := List.length_pos_iff.mpr (lineWord_fmtInt b.time).1.1.ne_nil
  have hshort : (spaced ([b.type.letter] :: b.masks ++ [b.oper]) (58 :: b.fullReason)).length
      ≤ 510 := by
    unfold bufSize Ban.line at hlen
    rw [hline] at hlen
    rw [hlist]
    simp only [Ban.words, List.map_append, List.map_cons, List.map_nil, List.sum_append,
      List.sum_cons, List.sum_nil] at hlen ⊢
    omega
  have htext : b.type.letter :: 32 :: (b.row.mask1 ++ 32 ::
      (if b.type = .kline then b.row.mask2 ++ 32 :: rowTail b.row else rowTail b.row))
        = spaced ([b.type.letter] :: b.masks ++ [b.oper]) (58 :: b.fullReason) := by
    rw [h.masks]
    by_cases hk : b.type = .kline
    · rw [if_pos hk, if_pos hk]
      simp [spaced, rowTail, Ban.row]
    · rw [if_neg hk, if_neg hk]
      simp [spaced, rowTail, Ban.row]
  have hfull : listLine b.type b.row
      = spaced ([b.type.letter] :: b.masks ++ [b.oper]) (58 :: b.fullReason) := by
    unfold listLine
    rw [htext, List.take_of_length_le (by omega)]
  exact ⟨hfull, by rw [hfull]; exact hshort⟩

/-- The server reads the ban out of that line, with the reason as one text. -/
theorem Ban.Wordy.listed (h : b.Wordy) (hlen : b.line.length < bufSize) (names : List Bytes)
    {chunks : List Bytes} (hc : Carries chunks (listLine b.type b.row)) :
    (rbHelperReads chunks).map (bandbParseBan names)
      = [some (makeConf b.type b.conf.user b.conf.host (operhashAdd names b.oper)
          b.fullReason)] := by
  obtain ⟨hline, hshort⟩ := h.listLine_eq hlen
  have hwords : ∀ w ∈ [b.type.letter] :: b.masks ++ [b.oper], LineWord w ∧ NoNul w := by
    intro w hw
    refine h.word w ?_
    simp only [Ban.words, List.cons_append, List.mem_cons, List.mem_append, List.not_mem_nil,
      or_false] at hw ⊢
    tauto
  have hsafe := spaced_line hwords (colon_line b.fullReason_line)
  have hlength : ([b.type.letter] :: b.masks ++ [b.oper]).length + 2 ≤ maxPara := by
    have := b.words_length
    simp only [Ban.words, maxPara, List.length_append, List.length_cons, List.length_nil] at this ⊢
    omega
  rw [rbHelperReads_of_line hc (by rw [hline]; exact List.cons_ne_nil _ _) (by rw [hline]; exact hsafe),
    List.take_of_length_le hshort, hline, List.map_singleton, bandbParseBan]
  rw [rbStringToArray_spaced (fun w hw => (hwords w hw).1.1) (.colon _) hlength]
  have hhead : ((([b.type.letter] :: b.masks ++ [b.oper]) ++ [b.fullReason]).headD []).headD 0
      = b.type.letter := rfl
  simp only [hhead, find_letter, Option.bind_some]
  unfold bandbHandleBan Ban.conf
  rw [h.masks]
  by_cases hk : b.type = .kline
  · simp only [if_pos hk]
    rfl
  · simp only [if_neg hk]
    rfl

/-- The operator and the reason come back when the name is the one in use and no bar
    is in the reason. -/
theorem makeConf_fullReason (b : Ban) (oper : Bytes) :
    makeConf b.type b.conf.user b.conf.host oper b.fullReason = b.conf ↔
      oper = b.oper ∧ 124 ∉ b.reason := by
  have hoper : ∀ text, (makeConf b.type b.conf.user b.conf.host oper text).oper = oper := by
    intro text
    unfold makeConf
    split <;> rfl
  constructor
  · intro h
    refine ⟨(hoper _).symm.trans (congrArg Conf.oper h), fun hbar => ?_⟩
    -- the server cuts at the bar in the reason
    have hcut : ∀ text : Bytes, 124 ∈ text →
        124 ∉ (makeConf b.type b.conf.user b.conf.host oper text).passwd := by
      intro text htext
      unfold makeConf
      split
      · rename_i reason operReason hchr
        exact (strchr_eq_some hchr).2
      · rename_i hchr
        exact absurd htext (strchr_eq_none_iff.mp hchr)
    refine hcut b.fullReason ?_ (by rw [h]; exact hbar)
    unfold Ban.fullReason
    split
    · exact hbar
    · exact List.mem_append_left _ hbar
  · rintro ⟨rfl, hbar⟩
    unfold makeConf Ban.fullReason
    by_cases ho : b.operReason = []
    · rw [if_pos ho, strchr_eq_none_iff.mpr hbar]
      simp only [Ban.conf, if_pos ho]
    · rw [if_neg ho, strchr_append hbar]
      simp only [Ban.conf, if_neg ho]

-- ============================================================================
-- Out of the database
-- ============================================================================

theorem Ban.Wordy.delLine_eq (h : b.Wordy) (hlen : b.line.length < bufSize) :
    (∃ ws last, b.delLine = spaced ([b.type.delLetter] :: ws) last ∧ b.masks = ws ++ [last]) ∧
      b.delLine.length ≤ 510 := by
  have hline := congrArg List.length b.line_eq
  have htake : b.delLine = (b.type.delLetter :: 32 :: (b.mask1 ++
      if b.mask2 = [] then [] else 32 :: b.mask2)).take (bufSize - 1) := by
    unfold Ban.delLine Bandb.delLine
    simp only [snprintfAppend_nil]
    split
    · rw [List.append_nil]
    · rw [snprintfAppend_take]
      rfl
  by_cases hk : b.type = .kline
  · have hne := (h.mask2 hk).1.ne_nil
    simp only [if_neg hne] at htake hline
    simp only [List.length_cons, List.length_append, List.length_nil] at hline
    have hlong : (b.type.delLetter :: 32 :: (b.mask1 ++ 32 :: b.mask2)).length ≤ 510 := by
      unfold bufSize at hlen
      simp only [List.length_cons, List.length_append]
      omega
    rw [List.take_of_length_le (by unfold bufSize; omega)] at htake
    refine ⟨⟨[b.mask1], b.mask2, ?_, ?_⟩, by rw [htake]; exact hlong⟩
    · rw [htake]
      simp [spaced]
    · rw [h.masks, if_pos hk]
      rfl
  · have hnil := b.mask2_nil hk
    simp only [if_pos hnil, List.append_nil] at htake
    simp only [List.length_cons, List.length_append] at hline
    have hlong : (b.type.delLetter :: 32 :: b.mask1).length ≤ 510 := by
      unfold bufSize at hlen
      simp only [List.length_cons]
      omega
    rw [List.take_of_length_le (by unfold bufSize; omega)] at htake
    refine ⟨⟨[], b.mask1, ?_, ?_⟩, by rw [htake]; exact hlong⟩
    · rw [htake]
      simp [spaced]
    · rw [h.masks, if_neg hk]
      rfl

theorem Ban.Wordy.deleted (h : b.Wordy) (hlen : b.line.length < bufSize) (db : Db)
    {chunks : List Bytes} (hc : Carries chunks b.delLine) :
    parseRequests db (rbHelperReads chunks) = db.delete b.type b.mask1 b.mask2 := by
  obtain ⟨⟨ws, last, hline, hmasks⟩, hshort⟩ := h.delLine_eq hlen
  have hword : ∀ w ∈ ws ++ [last], LineWord w ∧ NoNul w := by
    rw [← hmasks]
    exact h.mask_lineWord
  have hlast := hword last (List.mem_append_right _ (List.mem_singleton_self _))
  have hws : ∀ w ∈ [b.type.delLetter] :: ws, LineWord w ∧ NoNul w := by
    intro w hw
    obtain rfl | hw := List.mem_cons.mp hw
    · refine ⟨(lineWord_letter b.type).2, ?_⟩
      cases b.type <;> decide
    · exact hword w (List.mem_append_left _ hw)
  have hlength : ([b.type.delLetter] :: ws).length + 2 ≤ helperMaxpara := by
    have hlen := b.words_length
    simp only [Ban.words, hmasks, List.length_append, List.length_cons, List.length_nil] at hlen
    simp only [helperMaxpara, List.length_cons]
    omega
  have hsafe := spaced_line hws (LineWord.not_chopped hlast)
  rw [rbHelperReads_of_line hc (by rw [hline]; exact List.cons_ne_nil _ _) (by rw [hline]; exact hsafe),
    List.take_of_length_le hshort, parseRequests_singleton, hline]
  have hparv := rbStringToArray_spaced (fun w hw => (hws w hw).1.1) (.word hlast.1.1) hlength
  have hhead : ((([b.type.delLetter] :: ws) ++ [last]).headD []).headD 0 = b.type.delLetter := rfl
  have hunban : parseUnban b.type (([b.type.delLetter] :: ws) ++ [last])
      = some (b.mask1, b.mask2) := by
    rw [List.cons_append, ← hmasks, h.masks]
    unfold parseUnban
    by_cases hk : b.type = .kline
    · simp only [if_pos hk]
    · simp only [if_neg hk, b.mask2_nil hk]
  unfold parseRequest
  simp only [hparv, hhead, (find_delLetter b.type).1, (find_delLetter b.type).2, hunban]

-- ============================================================================
-- The round trip
-- ============================================================================

/-- A ban whose line fits the buffer makes its way exactly when it fits the
    format. -/
theorem roundTrip_iff_plain (names : List Bytes) (b : Ban) (hlen : b.line.length < bufSize) :
    RoundTrip names b ↔ b.Plain names := by
  constructor
  · intro h
    have hletter : isChopped b.type.letter = false := by cases b.type <;> rfl
    have hadd : b.type.letter ∈ b.addLine := by
      rw [Ban.addLine_eq hlen, b.line_eq]
      exact List.mem_cons_self
    obtain ⟨buf, hc⟩ := exists_carries hadd hletter
    have hrow : b.row ∈ parseRequests (fun _ => []) (rbHelperReads [buf]) b.type := by
      rw [h.stored _ _ hc]
      unfold Db.insert
      rw [Function.update_self]
      exact List.mem_singleton_self _
    have hw := wordy_of_stored hc hrow
    have hfits := fits_of_stored hw hlen hc hrow
    have hlist : b.type.letter ∈ listLine b.type b.row := by
      rw [(hw.listLine_eq hlen).1]
      exact List.mem_cons_self
    obtain ⟨buf, hc⟩ := exists_carries hlist hletter
    have hconf := h.listed _ hc
    rw [hw.listed hlen names hc] at hconf
    obtain ⟨hspell, hbar⟩ :=
      (makeConf_fullReason b _).mp (Option.some.inj (List.cons.inj hconf).1)
    exact ⟨hw, hspell, hbar, hfits⟩
  · intro h
    refine ⟨fun db chunks hc => h.stored db hc, fun chunks hc => ?_,
      fun db chunks hc => h.toWordy.deleted hlen db hc⟩
    rw [h.toWordy.listed hlen names hc, (makeConf_fullReason b _).mpr ⟨h.spelling, h.no_bar⟩]

/-- A D-line for 10.0.0.1 by `a!b@c{d}`, with reason `no` and oper reason `why`. -/
def dlineBan : Ban where
  type := .dline
  mask1 := [49, 48, 46, 48, 46, 48, 46, 49]
  mask2 := []
  oper := [97, 33, 98, 64, 99, 123, 100, 125]
  time := 1700000000
  perm := 0
  reason := [110, 111]
  operReason := [119, 104, 121]
  mask2_nil := fun _ => rfl
  mask1_noNul := by decide
  mask2_noNul := by decide
  oper_noNul := by decide
  reason_line := all_not_iff.mp (by decide)
  operReason_line := all_not_iff.mp (by decide)

theorem roundTrip_dlineBan :
    dlineBan.line.length < bufSize ∧ RoundTrip [dlineBan.oper] dlineBan := by
  have hlen : dlineBan.line.length < bufSize := by decide
  refine ⟨hlen, (roundTrip_iff_plain [dlineBan.oper] dlineBan hlen).mpr ?_⟩
  exact ⟨⟨by decide, (by decide), by decide⟩, by decide, by decide, by decide⟩

/-- A K-line for foobar@::1 by `a!b@c{d}`, with reason `no`. -/
def klineBan : Ban where
  type := .kline
  mask1 := [102, 111, 111, 98, 97, 114]
  mask2 := [58, 58, 49]
  oper := [97, 33, 98, 64, 99, 123, 100, 125]
  time := 1700000000
  perm := 0
  reason := [110, 111]
  operReason := []
  mask2_nil := fun h => absurd rfl h
  mask1_noNul := by decide
  mask2_noNul := by decide
  oper_noNul := by decide
  reason_line := all_not_iff.mp (by decide)
  operReason_line := all_not_iff.mp (by decide)

/-- A K-line for an IPv6 address that begins with colons is accepted and never gets
    into the database. -/
theorem not_roundTrip_klineBan : ¬ ∀ (cfg : Settings) (admin : Bool) (names : List Bytes) (b : Ban),
    accepted cfg admin b.type b.mask1 b.mask2 b.reason = true → b.line.length < bufSize →
      RoundTrip names b := by
  intro h
  have hlen : klineBan.line.length < bufSize := by decide
  have htrip := h ⟨4, 3, fun _ => none⟩ false [klineBan.oper] klineBan (by decide) hlen
  have hsent : Carries [klineBan.line ++ [13, 10]] klineBan.addLine := by
    refine ⟨fun c hc => ?_, by decide⟩
    rw [List.mem_singleton.mp hc]
    exact List.append_ne_nil_of_right_ne_nil _ (List.cons_ne_nil _ _)
  have hstored := htrip.stored (fun _ => []) _ hsent
  have hkline := congrFun hstored .kline
  have hread : rbHelperReads [klineBan.line ++ [13, 10]] = [klineBan.line] := by decide
  have hparse : parseRequests (fun _ => []) [klineBan.line] .kline = [] := by decide
  rw [hread, hparse] at hkline
  cases hkline

end Bluebox.Bandb
