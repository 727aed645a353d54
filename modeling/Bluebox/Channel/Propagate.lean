/-
  Bluebox.Channel.Propagate

  `send_cap_mode_changes` (`libratboxcore/channel.c`): the lines that tell the other
  servers a mode change, and what a server reads from the lines it is given.

  The loop runs once for each combination of capabilities that some server has.  A change
  that needs other capabilities than those of the table is told to nobody, and a line can
  be longer than what `sendto_server` sends of it.
-/
import Bluebox.Channel.ChCaps
import Bluebox.Channel.FinalMode

namespace Bluebox.Propagate

open Bluebox.Lib Bluebox.Chan Bluebox.ChCaps
open Bluebox.Bandb (Word spaced rbStringToArray rbStringToArray_blank rbStringToArray_spaced LastParam)
open Bluebox.Forward (Link ServList Line sendtoServer useId capTs6)
open Bluebox.ModeBuf (Shown Combo Bufs loop serverStart maxModeParamsServ lineFull)
open Bluebox.ModeLine (splitCommand)
open Bluebox.Notify (signs params)
open Bluebox.FinalMode (argWords params_eq read_signs)

-- ============================================================================
-- send_cap_mode_changes
-- ============================================================================

/-- `struct ChModeChange`, with its masks of capabilities. -/
structure WireChange where
  letter : UInt8
  arg : Option Bytes
  id : Option Bytes
  dir : Dir
  caps : UInt32
  nocaps : UInt32
deriving DecidableEq, Repr

/-- The argument of a change, which is a UID where the servers know it. -/
def WireChange.argFor (m : WireChange) (ts6 : Bool) : Option Bytes :=
  if ts6 && m.id.any (· != []) then m.id else m.arg

/-- What the servers of a combination are shown of a change, if it is not left out. -/
def shown (j : ChCapCombo) (m : WireChange) : Option Shown :=
  if m.letter = 0 ∨ j.capYes &&& m.caps ≠ m.caps ∨ j.capNo &&& m.nocaps ≠ m.nocaps then none
  else
    let arg := m.argFor (j.capYes &&& capTs6 != 0)
    if arg.any fun a => modeBufLen - 5 < a.length then none else some ⟨m.letter, m.dir, arg⟩

/-- The lines for the servers of a combination; `line` are the changes of the one at hand. -/
def serverLines (start : Bytes) (line : List Shown) : List Shown → List Bytes
  | [] => if line = [] then [] else [start ++ signs .query line ++ 32 :: (params line).dropLast]
  | m :: l =>
    if lineFull start.length line m then
      (if line = [] then [] else [start ++ signs .query line ++ 32 :: params line]) ++
        serverLines start [m] l
    else serverLines start (line ++ [m]) l

/-- The capabilities of a combination, one by one. -/
def kind (j : ChCapCombo) : Combo where
  ex := j.capYes &&& capEx != 0
  ie := j.capYes &&& capIe != 0
  service := j.capYes &&& capService != 0
  ts6 := j.capYes &&& capTs6 != 0

/-- One round of the loop; none stands for a write behind the end of a buffer. -/
def comboLines (source : Client) (ch : Channel) (changes : List WireChange) (j : ChCapCombo) :
    Option (List Bytes) :=
  let start := serverStart source ch (kind j)
  let l := changes.filterMap (shown j)
  if ∀ x ∈ ModeBuf.Write.mode start.length :: loop false start.length (Bufs.start start.length) l, x.last < bufSize then
    some (serverLines start [] l)
  else none

/-- `send_cap_mode_changes`, from some combination on; `one` is the link that is left out. -/
def sendCombos (sl : ServList) (one : Nat) (source : Client) (ch : Channel) (changes : List WireChange) :
    List ChCapCombo → Option (List (Nat × Line))
  | [] => some []
  | j :: combos =>
    if j.count = 0 then sendCombos sl one source ch changes combos
    else
      (comboLines source ch changes j).bind fun lines =>
        (sendCombos sl one source ch changes combos).map fun sent =>
          (lines.flatMap fun line =>
            sendtoServer sl one (some ch.chname) j.capYes j.capNo ⟨line.take 510, []⟩) ++ sent

/-- `send_cap_mode_changes`. -/
def sendCapModeChanges (s : Mesh) (one : Nat) (source : Client) (ch : Channel)
    (changes : List WireChange) : Option (List (Nat × Line)) :=
  sendCombos s.servList one source ch changes s.combos

-- ============================================================================
-- Reading
-- ============================================================================

/-- The changes in the letters, with the words behind them; `takes` are the letters that
    have an argument. -/
def readShown (takes : Dir → UInt8 → Bool) : Dir → Bytes → List Bytes → List Shown
  | _, [], _ => []
  | dir, c :: cs, args =>
    if c = 43 then readShown takes .add cs args
    else if c = 45 then readShown takes .del cs args
    else if takes dir c then ⟨c, dir, args.head?⟩ :: readShown takes dir cs args.tail
    else ⟨c, dir, none⟩ :: readShown takes dir cs args

/-- The changes in a `MODE` or a `TMODE` line. -/
def readMode (takes : Dir → UInt8 → Bool) (line : Bytes) : List Shown :=
  match splitCommand line with
  | none => []
  | some (cmd, s) =>
    let parv := rbStringToArray s 15
    -- a time stamp stands in front of the channel
    let parv := if cmd = [84, 77, 79, 68, 69] then parv.tail else parv
    readShown takes .add (parv.getD 1 []) (parv.drop 2)

/-- The lines that a server is given, in this order. -/
def linesFor (x : Link) (sent : List (Nat × Line)) : List Bytes :=
  (sent.filter (·.1 == x.id)).map (·.2.text)

/-- A change as a server is to see it. -/
def WireChange.seen (x : Link) (m : WireChange) : Shown :=
  ⟨m.letter, m.dir, m.argFor (x.isCapable capTs6)⟩

/-- The server reads the changes that are for it, each once, and no line has more arguments
    than allowed. -/
def Delivered (takes : Dir → UInt8 → Bool) (x : Link) (changes : List WireChange)
    (sent : List (Nat × Line)) : Prop :=
  (linesFor x sent).flatMap (readMode takes) =
      (changes.filter fun m => x.isCapable m.caps && x.notCapable m.nocaps).map (·.seen x) ∧
    ∀ line ∈ linesFor x sent, (readMode takes line).countP (·.arg.isSome) ≤ maxModeParamsServ

/-- A change with a letter, a direction and arguments that a line can hold. -/
structure WellFormed (takes : Dir → UInt8 → Bool) (m : WireChange) : Prop where
  letter : m.letter ≠ 0 ∧ m.letter ≠ 43 ∧ m.letter ≠ 45 ∧ m.letter ≠ 32
  dir : m.dir ≠ .query
  takes : ∀ ts6, (m.argFor ts6).isSome = takes m.dir m.letter
  word : ∀ ts6, ∀ a ∈ m.argFor ts6, Word a ∧ a.length ≤ modeBufLen - 5

-- ============================================================================
-- A line
-- ============================================================================

/-- A change that a line can carry. -/
structure Carried (takes : Dir → UInt8 → Bool) (m : Shown) : Prop where
  dir : m.dir ≠ .query
  letter : m.letter ≠ 43 ∧ m.letter ≠ 45 ∧ m.letter ≠ 32
  takes : m.arg.isSome = takes m.dir m.letter
  word : ∀ a ∈ m.arg, Word a

section Reading

variable {takes : Dir → UInt8 → Bool}

theorem readShown_letter {m : Shown} (h : Carried takes m) (cs : Bytes) (l : List Shown) :
    readShown takes m.dir (m.letter :: cs) (argWords (m :: l)) =
      m :: readShown takes m.dir cs (argWords l) := by
  have htakes := h.takes
  rw [readShown, if_neg h.letter.1, if_neg h.letter.2.1, ← htakes]
  unfold argWords
  cases harg : m.arg with
  | none =>
    rw [List.filterMap_cons_none harg, if_neg (by exact Bool.false_ne_true), ← harg]
  | some a =>
    rw [List.filterMap_cons_some harg, if_pos (by rfl), List.head?_cons, List.tail_cons, ← harg]

/-- The signs and letters of changes are read as these changes. -/
theorem readShown_signs (l : List Shown) (dir dir' : Dir) (hdir : dir' = dir ∨ dir' = .query)
    (h : ∀ m ∈ l, Carried takes m) : readShown takes dir (signs dir' l) (argWords l) = l := by
  have hread := @read_signs Shown (readShown takes) id (Carried takes) (fun _ => rfl) (fun _ _ _ => rfl)
    (fun _ _ _ => rfl) (fun _ cs l hm => readShown_letter hm cs l) (fun _ hm => hm.dir) l dir dir' hdir h
  rw [hread, List.map_id]

theorem spaced_eq (ws : List Bytes) (last : Bytes) : spaced ws last = ws.flatMap (· ++ [32]) ++ last := by
  induction ws with
  | nil => rfl
  | cons w ws ih =>
    show w ++ 32 :: spaced ws last = _
    rw [ih, List.flatMap_cons, List.append_assoc, List.append_assoc]
    rfl

/-- Words with a blank behind each come back, also when the last blank is cut off. -/
theorem rbStringToArray_words {ws : List Bytes} (hws : ∀ w ∈ ws, Word w) (hne : ws ≠ []) (hlen : ws.length ≤ 14) :
    rbStringToArray (ws.flatMap (· ++ [32])) 15 = ws ∧
      rbStringToArray (ws.flatMap (· ++ [32])).dropLast 15 = ws := by
  rcases List.eq_nil_or_concat ws with rfl | ⟨init, w, rfl⟩
  · exact absurd rfl hne
  · rw [List.concat_eq_append] at hws hlen ⊢
    rw [List.length_append, List.length_singleton] at hlen
    obtain ⟨hinit, hw⟩ := List.forall_mem_append.mp hws
    have hword := hw w (List.mem_singleton_self w)
    have htext : (init ++ [w]).flatMap (· ++ [32]) = spaced init (w ++ [32]) := by
      rw [spaced_eq, List.flatMap_append, List.flatMap_singleton]
    have hcut : ((init ++ [w]).flatMap (· ++ [32])).dropLast = spaced init w := by
      rw [spaced_eq, List.flatMap_append, List.flatMap_singleton, ← List.append_assoc, List.dropLast_concat]
    rw [hcut, htext]
    exact ⟨rbStringToArray_blank hinit hword (by omega),
      rbStringToArray_spaced hinit (LastParam.word hword) (by omega)⟩

theorem word_signs {l : List Shown} (hne : l ≠ []) (h : ∀ m ∈ l, Carried takes m) : Word (signs .query l) := by
  obtain ⟨m, l, rfl⟩ := List.exists_cons_of_ne_nil hne
  have hm := h m List.mem_cons_self
  have hsigns : signs .query (m :: l) = (if m.dir = .add then 43 else 45) :: m.letter :: signs m.dir l := by
    rw [signs, if_neg (Ne.symm hm.dir)]
    rfl
  refine ⟨?_, fun b hb heq => ?_, ?_⟩
  · rw [hsigns]
    exact List.cons_ne_nil _ _
  · exact FinalMode.signs_noSpace _ (fun x hx => (h x hx).letter.2.2) .query (heq ▸ hb)
  · rw [hsigns]
    split <;> exact fun h => absurd (Option.some.inj h) (by decide)

/-- The end of a line as the loop leaves it, with or without the last blank. -/
def Ends (l : List Shown) (p : Bytes) : Prop := p = params l ∨ p = (params l).dropLast

/-- The parameters of a line. -/
theorem rbStringToArray_line {ws : List Bytes} (hws : ∀ w ∈ ws, Word w) (hlen : ws.length ≤ 2)
    {l : List Shown} (hne : l ≠ []) (h : ∀ m ∈ l, Carried takes m)
    (hcount : l.countP (·.arg.isSome) ≤ maxModeParamsServ) {p : Bytes} (hp : Ends l p) :
    rbStringToArray (ws.flatMap (· ++ [32]) ++ (signs .query l ++ 32 :: p)) 15 =
      ws ++ signs .query l :: argWords l := by
  have hargs : (argWords l).length ≤ 10 := by
    rw [argWords, List.length_filterMap_eq_countP]
    exact hcount
  have hwords : ∀ w ∈ ws ++ signs .query l :: argWords l, Word w := by
    refine List.forall_mem_append.mpr ⟨hws, List.forall_mem_cons.mpr ⟨word_signs hne h, fun a ha => ?_⟩⟩
    obtain ⟨m, hm, harg⟩ := List.mem_filterMap.mp ha
    exact (h m hm).word a harg
  obtain ⟨hfull, hcut⟩ := rbStringToArray_words hwords (by simp) (by
    rw [List.length_append, List.length_cons]
    omega)
  have htext : ws.flatMap (· ++ [32]) ++ (signs .query l ++ 32 :: params l) =
      (ws ++ signs .query l :: argWords l).flatMap (· ++ [32]) := by
    rw [List.flatMap_append, List.flatMap_cons, params_eq, List.append_assoc]
    rfl
  rcases hp with rfl | rfl
  · rw [htext, hfull]
  · by_cases hnil : params l = []
    · have hsame : (params l).dropLast = params l := by rw [hnil]; rfl
      rw [hsame, htext, hfull]
    · have hdrop : ws.flatMap (· ++ [32]) ++ (signs .query l ++ 32 :: (params l).dropLast) =
          (ws.flatMap (· ++ [32]) ++ (signs .query l ++ 32 :: params l)).dropLast := by
        rw [List.dropLast_append_of_ne_nil (by simp), List.dropLast_append_of_ne_nil (List.cons_ne_nil _ _),
          List.dropLast_cons_of_ne_nil hnil]
      rw [hdrop, htext, hcut]

/-- The sender and the command come off a line. -/
theorem splitCommand_line {src cmd : Bytes} (hsrc : Word src) (hcmd : Word cmd) (s : Bytes) :
    splitCommand (58 :: (src ++ 32 :: (cmd ++ 32 :: s))) = some (cmd, s) := by
  unfold splitCommand
  have hstart : (58 :: (src ++ 32 :: (cmd ++ 32 :: s))).dropWhile (· == 32) =
      58 :: (src ++ 32 :: (cmd ++ 32 :: s)) := List.dropWhile_cons_of_neg (by decide)
  simp only [hstart, List.head?_cons, if_true, List.tail_cons, hsrc.strchr_blank, (hcmd.head_append _).2.1,
    hcmd.strchr_blank]

/-- What can stand at the beginning of the lines. -/
structure Sendable (source : Client) (ch : Channel) : Prop where
  name : Word source.name
  id : source.id = [] ∨ Word source.id
  chname : Word ch.chname

theorem word_fmtInt (n : Int) : Word (fmtInt n) := by
  refine ⟨fmtInt_ne_nil n, fun b hb heq => fmtInt_noSpace n (heq ▸ hb), fun h => ?_⟩
  exact (fmtInt_digits (List.mem_of_head? h)).elim (fun h => absurd h (by decide)) fun h => absurd h (by decide)

theorem word_useId {source : Client} {ch : Channel} (h : Sendable source ch) : Word (useId source) := by
  unfold useId
  split
  · rename_i hid
    exact h.id.resolve_left hid
  · exact h.name

/-- A line is read as the changes it was made from. -/
theorem readMode_line {source : Client} {ch : Channel} (hsend : Sendable source ch) (k : Combo) {l : List Shown}
    (hne : l ≠ []) (h : ∀ m ∈ l, Carried takes m) (hcount : l.countP (·.arg.isSome) ≤ maxModeParamsServ)
    {p : Bytes} (hp : Ends l p) :
    readMode takes (serverStart source ch k ++ signs .query l ++ 32 :: p) = l := by
  have hsigns := readShown_signs l .add .query (Or.inr rfl) h
  unfold serverStart
  split
  · have hline : 58 :: useId source ++ [32, 84, 77, 79, 68, 69, 32] ++ fmtInt ch.channelts ++ 32 :: ch.chname ++
        [32] ++ signs .query l ++ 32 :: p =
        58 :: (useId source ++ 32 :: ([84, 77, 79, 68, 69] ++ 32 ::
          ([fmtInt ch.channelts, ch.chname].flatMap (· ++ [32]) ++ (signs .query l ++ 32 :: p)))) := by
      simp
    have hwords : ∀ w ∈ [fmtInt ch.channelts, ch.chname], Word w := by
      simp [word_fmtInt, hsend.chname]
    have hparv := rbStringToArray_line hwords (Nat.le_refl 2) hne h hcount hp
    rw [readMode, hline, splitCommand_line (word_useId hsend) (by decide)]
    simp only [if_true, hparv]
    exact hsigns
  · have hline : 58 :: source.name ++ [32, 77, 79, 68, 69, 32] ++ ch.chname ++ [32] ++ signs .query l ++ 32 :: p =
        58 :: (source.name ++ 32 :: ([77, 79, 68, 69] ++ 32 ::
          ([ch.chname].flatMap (· ++ [32]) ++ (signs .query l ++ 32 :: p)))) := by
      simp
    have hwords : ∀ w ∈ [ch.chname], Word w := by
      simp [hsend.chname]
    have hparv := rbStringToArray_line hwords (Nat.le_succ 1) hne h hcount hp
    have hcmd : ¬ ([77, 79, 68, 69] : Bytes) = [84, 77, 79, 68, 69] := by decide
    rw [readMode, hline, splitCommand_line hsend.name (by decide)]
    simp only [if_neg hcmd, hparv]
    exact hsigns

end Reading

-- ============================================================================
-- The lines of a combination
-- ============================================================================

section Lines

variable {takes : Dir → UInt8 → Bool} {source : Client} {ch : Channel}

/-- A change that does not begin a new line leaves room for ten arguments. -/
theorem countP_of_not_full {mlen : Nat} {line : List Shown} {m : Shown} (hfull : lineFull mlen line m = false)
    (hline : line.countP (·.arg.isSome) ≤ maxModeParamsServ) :
    (line ++ [m]).countP (·.arg.isSome) ≤ maxModeParamsServ := by
  rw [List.countP_append, List.countP_singleton]
  cases harg : m.arg with
  | none => exact hline
  | some a =>
    unfold lineFull at hfull
    rw [harg] at hfull
    have hne := (Bool.or_eq_false_iff.mp hfull).1
    rw [beq_eq_false_iff_ne] at hne
    exact Nat.lt_of_le_of_ne hline hne

/-- The lines are read as the changes, in order. -/
theorem serverLines_read (hsend : Sendable source ch) (k : Combo) (l : List Shown) : ∀ line : List Shown,
    (∀ m ∈ line ++ l, Carried takes m) → line.countP (·.arg.isSome) ≤ maxModeParamsServ →
    (serverLines (serverStart source ch k) line l).flatMap (readMode takes) = line ++ l ∧
      ∀ t ∈ serverLines (serverStart source ch k) line l,
        (readMode takes t).countP (·.arg.isSome) ≤ maxModeParamsServ := by
  induction l with
  | nil =>
    intro line hcarried hcount
    rw [List.append_nil] at hcarried ⊢
    rw [serverLines]
    by_cases hnil : line = []
    · rw [if_pos hnil, hnil]
      exact ⟨rfl, fun t ht => absurd ht List.not_mem_nil⟩
    · have hread := readMode_line hsend k hnil hcarried hcount (Or.inr rfl)
      rw [if_neg hnil, List.flatMap_singleton, List.forall_mem_singleton, hread]
      exact ⟨rfl, hcount⟩
  | cons m l ih =>
    intro line hcarried hcount
    obtain ⟨hline, hrest⟩ := List.forall_mem_append.mp hcarried
    rw [serverLines]
    by_cases hfull : lineFull (serverStart source ch k).length line m = true
    · rw [if_pos hfull, List.flatMap_append, List.forall_mem_append]
      obtain ⟨hread, hcounts⟩ := ih [m] hrest ((List.countP_le_length).trans (show 1 ≤ 10 by decide))
      rw [hread]
      by_cases hnil : line = []
      · rw [if_pos hnil, hnil]
        exact ⟨rfl, fun t ht => absurd ht List.not_mem_nil, hcounts⟩
      · have hthis := readMode_line hsend k hnil hline hcount (Or.inl rfl)
        rw [if_neg hnil, List.flatMap_singleton, List.forall_mem_singleton, hthis]
        exact ⟨rfl, hcount, hcounts⟩
    · rw [if_neg hfull]
      have hnext := ih (line ++ [m]) (by rwa [List.append_assoc])
        (countP_of_not_full (Bool.eq_false_iff.mpr hfull) hcount)
      rwa [List.append_assoc] at hnext

end Lines

-- ============================================================================
-- What a server is shown
-- ============================================================================

/-- All capabilities of the table. -/
def channelMask : UInt32 := channelCapabs.foldl (· ||| ·) 0

/-- The change asks for capabilities of the table only. -/
structure WireChange.Known (m : WireChange) : Prop where
  caps : m.caps &&& channelMask = m.caps
  nocaps : m.nocaps &&& channelMask = m.nocaps

section Shows

variable {takes : Dir → UInt8 → Bool} {x : Link} {n : Nat}

theorem comboOf_masks (hn : n < 16) :
    (comboOf n).capYes ||| (comboOf n).capNo = channelMask ∧ (comboOf n).capNo &&& (comboOf n).capYes = 0 := by
  have hall : ((List.range 16).all fun n => (comboOf n).capYes ||| (comboOf n).capNo == channelMask &&
      ((comboOf n).capNo &&& (comboOf n).capYes == 0)) = true := by decide
  have h := List.all_eq_true.mp hall n (List.mem_range.mpr hn)
  rw [Bool.and_eq_true, beq_iff_eq, beq_iff_eq] at h
  exact h

/-- On the capabilities of the table a combination agrees with its servers. -/
theorem capYes_and (hn : n < 16) (hhas : (comboOf n).has x = true) {k : UInt32} (hk : k &&& channelMask = k) :
    (comboOf n).capYes &&& k = x.caps &&& k := by
  obtain ⟨hyes, hno⟩ := Bool.and_eq_true_iff.mp hhas
  have hyes' : x.caps &&& (comboOf n).capYes = (comboOf n).capYes := beq_iff_eq.mp hyes
  have hno' : x.caps &&& (comboOf n).capNo = 0 := beq_iff_eq.mp hno
  have hmask : x.caps &&& channelMask = (comboOf n).capYes := by
    rw [← (comboOf_masks hn).1, and_or_distrib, hyes', hno', UInt32.or_zero]
  rw [← hmask, UInt32.and_assoc, UInt32.and_comm channelMask, hk]

theorem capNo_and (hn : n < 16) (hhas : (comboOf n).has x = true) {k : UInt32} (hk : k &&& channelMask = k) :
    (comboOf n).capNo &&& k = k ↔ x.caps &&& k = 0 := by
  obtain ⟨hmask, hdisjoint⟩ := comboOf_masks hn
  rw [← capYes_and hn hhas hk]
  constructor
  · intro h
    rw [← h, ← UInt32.and_assoc, UInt32.and_comm (comboOf n).capYes, hdisjoint, UInt32.zero_and]
  · intro h
    have hsplit : k &&& ((comboOf n).capYes ||| (comboOf n).capNo) = k := by rw [hmask, hk]
    rw [and_or_distrib, UInt32.and_comm k, h, UInt32.zero_or, UInt32.and_comm] at hsplit
    exact hsplit

/-- A change is shown to the servers that know its mode. -/
theorem shown_eq {m : WireChange} (hn : n < 16) (hhas : (comboOf n).has x = true) (hwf : WellFormed takes m)
    (hknown : m.Known) {count : Nat} :
    shown { comboOf n with count := count } m =
      if x.isCapable m.caps && x.notCapable m.nocaps then some (m.seen x) else none := by
  have hts6 : ((comboOf n).capYes &&& capTs6 != 0) = x.isCapable capTs6 := by
    have hnot := Forward.notCapable_ts6 x
    rw [capYes_and hn hhas (by decide), bne, ← Bool.not_not (x.isCapable capTs6), ← hnot]
    rfl
  have hcaps : (comboOf n).capYes &&& m.caps = m.caps ↔ x.isCapable m.caps = true := by
    rw [capYes_and hn hhas hknown.caps, Link.isCapable, beq_iff_eq]
  have hnocaps : (comboOf n).capNo &&& m.nocaps = m.nocaps ↔ x.notCapable m.nocaps = true := by
    rw [capNo_and hn hhas hknown.nocaps, Link.notCapable, beq_iff_eq]
  have hshort : ((m.argFor (x.isCapable capTs6)).any fun a => decide (modeBufLen - 5 < a.length)) = false := by
    rw [Option.any_eq_false]
    intro a ha
    exact decide_eq_false (Nat.not_lt_of_le (hwf.word _ a ha).2)
  have hskip : (m.letter = 0 ∨ (comboOf n).capYes &&& m.caps ≠ m.caps ∨
      (comboOf n).capNo &&& m.nocaps ≠ m.nocaps) ↔
      ¬ (x.isCapable m.caps = true ∧ x.notCapable m.nocaps = true) := by
    rw [or_iff_right hwf.letter.1, ← hcaps, ← hnocaps, not_and_or]
  unfold shown
  dsimp only
  rw [hts6, hshort]
  by_cases hsees : x.isCapable m.caps = true ∧ x.notCapable m.nocaps = true
  · rw [if_neg fun h => hskip.mp h hsees, if_neg Bool.false_ne_true, if_pos (Bool.and_eq_true_iff.mpr hsees)]
    rfl
  · rw [if_pos (hskip.mpr hsees), if_neg fun h => hsees (Bool.and_eq_true_iff.mp h)]

theorem filterMap_shown {changes : List WireChange} (hn : n < 16) (hhas : (comboOf n).has x = true)
    (hwf : ∀ m ∈ changes, WellFormed takes m) (hknown : ∀ m ∈ changes, m.Known) {count : Nat} :
    changes.filterMap (shown { comboOf n with count := count }) =
      (changes.filter fun m => x.isCapable m.caps && x.notCapable m.nocaps).map (·.seen x) := by
  induction changes with
  | nil => rfl
  | cons m changes ih =>
    have hrest := ih (fun c hc => hwf c (List.mem_cons_of_mem _ hc)) fun c hc => hknown c (List.mem_cons_of_mem _ hc)
    have hshown := @shown_eq takes x n m hn hhas (hwf m List.mem_cons_self) (hknown m List.mem_cons_self) count
    by_cases hsees : (x.isCapable m.caps && x.notCapable m.nocaps) = true
    · rw [if_pos hsees] at hshown
      rw [List.filterMap_cons_some hshown, hrest, List.filter_cons, if_pos hsees, List.map_cons]
    · rw [if_neg hsees] at hshown
      rw [List.filterMap_cons_none hshown, hrest, List.filter_cons, if_neg hsees]

end Shows

-- ============================================================================
-- The changes of set_channel_mode
-- ============================================================================

/-- The capabilities of a change as a mask. -/
def capsMask : ChangeCaps → UInt32
  | .any => 0
  | .ex => capEx
  | .ie => capIe
  | .service => capService

/-- A change that `set_channel_mode` recorded. -/
def wire (w : Walk) (m : Chan.ChModeChange) : WireChange :=
  ⟨m.letter, ModeBuf.changeArg w m.arg, m.id, m.dir, capsMask m.caps, 0⟩

/-- It needs capabilities of the table only. -/
theorem wire_known (w : Walk) (m : Chan.ChModeChange) : (wire w m).Known := by
  constructor
  · show capsMask m.caps &&& channelMask = capsMask m.caps
    cases m.caps <;> decide
  · exact UInt32.zero_and

theorem knows_kind {n : Nat} (hn : n < 16) (caps : ChangeCaps) :
    (kind (comboOf n)).knows caps = true ↔ (comboOf n).capYes &&& capsMask caps = capsMask caps := by
  have hall : ((List.range 16).all fun n => [ChangeCaps.any, .ex, .ie, .service].all fun caps =>
      (kind (comboOf n)).knows caps == ((comboOf n).capYes &&& capsMask caps == capsMask caps)) = true := by
    decide
  have hcaps : caps ∈ [ChangeCaps.any, .ex, .ie, .service] := by cases caps <;> decide
  have h := List.all_eq_true.mp (List.all_eq_true.mp hall n (List.mem_range.mpr hn)) caps hcaps
  rw [beq_iff_eq.mp h, beq_iff_eq]

/-- What is shown of a recorded change. -/
theorem shown_wire (w : Walk) (m : Chan.ChModeChange) {n : Nat} (hn : n < 16) :
    shown (comboOf n) (wire w m) =
      if m.letter != 0 && (kind (comboOf n)).knows m.caps then
        some (Shown.mk m.letter m.dir ((wire w m).argFor (kind (comboOf n)).ts6)) |>.filter (·.short)
      else none := by
  have hknows := knows_kind hn m.caps
  have hshort : ((wire w m).argFor (kind (comboOf n)).ts6).any (fun a => decide (modeBufLen - 5 < a.length)) =
      !(Shown.mk m.letter m.dir ((wire w m).argFor (kind (comboOf n)).ts6)).short := by
    unfold Shown.short
    cases (wire w m).argFor (kind (comboOf n)).ts6 with
    | none => rfl
    | some a =>
      rw [Option.any_some, Option.all_some, ← decide_not]
      exact decide_eq_decide.mpr Nat.not_le.symm
  unfold shown
  by_cases hsees : (m.letter != 0 && (kind (comboOf n)).knows m.caps) = true
  · obtain ⟨hletter, hk⟩ := Bool.and_eq_true_iff.mp hsees
    rw [if_pos hsees, if_neg]
    · show (if (((wire w m).argFor (kind (comboOf n)).ts6).any _) then none else some _) = _
      rw [hshort, Option.filter_some]
      cases (Shown.mk m.letter m.dir ((wire w m).argFor (kind (comboOf n)).ts6)).short <;> rfl
    · rintro (h | h | h)
      · exact bne_iff_ne.mp hletter h
      · exact h (hknows.mp hk)
      · exact h UInt32.and_zero
  · rw [if_neg hsees, if_pos]
    by_cases hzero : m.letter = 0
    · exact Or.inl hzero
    · refine Or.inr (Or.inl fun hcaps => hsees ?_)
      exact Bool.and_eq_true_iff.mpr ⟨bne_iff_ne.mpr hzero, hknows.mpr hcaps⟩

/-- The servers of a combination are shown what the buffers are filled with. -/
theorem serverShown_eq (w : Walk) {n : Nat} (hn : n < 16) :
    ModeBuf.serverShown w (kind (comboOf n)) = (w.modeChanges.map (wire w)).filterMap (shown (comboOf n)) := by
  unfold ModeBuf.serverShown
  induction w.modeChanges with
  | nil => rfl
  | cons m l ih =>
    have hshown := shown_wire w m hn
    rw [List.map_cons, List.filter_cons]
    by_cases hsees : (m.letter != 0 && (kind (comboOf n)).knows m.caps) = true
    · rw [if_pos hsees, Option.filter_some] at hshown
      rw [if_pos hsees, List.map_cons, List.filter_cons, ih]
      by_cases hshort : (Shown.mk m.letter m.dir ((wire w m).argFor (kind (comboOf n)).ts6)).short = true
      · rw [if_pos hshort] at hshown
        rw [List.filterMap_cons_some hshown]
        exact if_pos hshort
      · rw [if_neg hshort] at hshown
        rw [List.filterMap_cons_none hshown]
        exact if_neg hshort
    · rw [if_neg hsees] at hshown
      rw [if_neg hsees, ih, List.filterMap_cons_none hshown]

-- ============================================================================
-- Delivery
-- ============================================================================

section Delivery

variable {sl : ServList} {x : Link} {one : Nat} {source : Client} {ch : Channel} {changes : List WireChange}

theorem filter_id {links : List Link} (hnodup : (links.map Link.id).Nodup) (hx : x ∈ links) :
    links.filter (·.id == x.id) = [x] := by
  have hperm := (perm_filter_ne hx hnodup).filter (·.id == x.id)
  have hrest : (links.filter (·.id != x.id)).filter (·.id == x.id) = [] := by
    rw [List.filter_filter, List.filter_eq_nil_iff]
    intro y _ hboth
    rw [Bool.and_eq_true, bne_iff_ne, beq_iff_eq] at hboth
    exact hboth.2 hboth.1
  rw [List.filter_cons, if_pos (beq_self_eq_true _), hrest] at hperm
  exact List.perm_singleton.mp hperm

theorem linesFor_append (a b : List (Nat × Line)) : linesFor x (a ++ b) = linesFor x a ++ linesFor x b := by
  rw [linesFor, List.filter_append, List.map_append]
  rfl

/-- A line goes to the servers of the combination. -/
theorem linesFor_sendtoServer (hx : x ∈ sl.links) (hone : x.id ≠ one) {chname : Bytes}
    (hglobal : chname.head? = some 35) (j : ChCapCombo) (line : Line) :
    linesFor x (sendtoServer sl one (some chname) j.capYes j.capNo line) =
      if j.has x then [line.text] else [] := by
  have hsend : (some chname).any (fun s => s.head? != some 35) = false := by
    rw [Option.any_some, hglobal]
    rfl
  have hfilter : (sl.links.filter fun y => y.id != one && y.isCapable j.capYes && y.notCapable j.capNo).filter
      (fun y => y.id == x.id) = if j.has x then [x] else [] := by
    have hkeep : (x.id != one && x.isCapable j.capYes && x.notCapable j.capNo) = j.has x := by
      rw [bne_iff_ne.mpr hone, Bool.true_and]
      rfl
    rw [List.filter_comm, filter_id sl.nodup hx, List.filter_singleton, hkeep]
    cases j.has x <;> rfl
  unfold linesFor sendtoServer
  rw [hsend, if_neg Bool.false_ne_true, List.filter_map, List.map_map]
  show ((sl.links.filter _).filter (fun y : Link => y.id == x.id)).map _ = _
  rw [hfilter]
  cases j.has x <;> rfl

theorem linesFor_flatMap (hx : x ∈ sl.links) (hone : x.id ≠ one) {chname : Bytes}
    (hglobal : chname.head? = some 35) (j : ChCapCombo) (lines : List Bytes) :
    linesFor x (lines.flatMap fun line =>
      sendtoServer sl one (some chname) j.capYes j.capNo ⟨line.take 510, []⟩) =
      if j.has x then lines.map (·.take 510) else [] := by
  induction lines with
  | nil => cases j.has x <;> rfl
  | cons line lines ih =>
    rw [List.flatMap_cons, linesFor_append, ih, linesFor_sendtoServer hx hone hglobal]
    cases j.has x <;> rfl

/-- The server is given the lines of its combination. -/
theorem linesFor_sendCombos (hx : x ∈ sl.links) (hone : x.id ≠ one) (hglobal : ch.chname.head? = some 35)
    (combos : List ChCapCombo) : ∀ {sent : List (Nat × Line)},
    (∀ j ∈ combos, j.has x = true → j.count ≠ 0) →
    sendCombos sl one source ch changes combos = some sent →
    linesFor x sent = (combos.filter (·.has x)).flatMap fun j =>
      ((comboLines source ch changes j).getD []).map (·.take 510) := by
  induction combos with
  | nil =>
    intro sent _ hsent
    obtain rfl := Option.some.inj hsent
    rfl
  | cons j combos ih =>
    intro sent hused hsent
    have hrest := fun k hk => hused k (List.mem_cons_of_mem j hk)
    rw [sendCombos] at hsent
    by_cases hzero : j.count = 0
    · rw [if_pos hzero] at hsent
      have hnot : ¬ j.has x = true := fun hhas => hused j List.mem_cons_self hhas hzero
      rw [List.filter_cons, if_neg hnot]
      exact ih hrest hsent
    · rw [if_neg hzero] at hsent
      obtain ⟨lines, hlines, hsent⟩ := Option.bind_eq_some_iff.mp hsent
      obtain ⟨later, hlater, rfl⟩ := Option.map_eq_some_iff.mp hsent
      rw [linesFor_append, linesFor_flatMap hx hone hglobal, ih hrest hlater, List.filter_cons]
      by_cases hhas : j.has x = true
      · rw [if_pos hhas, if_pos hhas, List.flatMap_cons, hlines]
        rfl
      · rw [if_neg hhas, if_neg hhas]
        rfl

/-- All rounds of the loop went through. -/
theorem comboLines_of_sendCombos (combos : List ChCapCombo) : ∀ {sent : List (Nat × Line)},
    sendCombos sl one source ch changes combos = some sent →
    ∀ j ∈ combos, j.count ≠ 0 → ∃ lines, comboLines source ch changes j = some lines := by
  induction combos with
  | nil => exact fun _ j hj => absurd hj List.not_mem_nil
  | cons k combos ih =>
    intro sent hsent j hj hused
    rw [sendCombos] at hsent
    by_cases hzero : k.count = 0
    · rw [if_pos hzero] at hsent
      rcases List.mem_cons.mp hj with rfl | hj
      · exact absurd hzero hused
      · exact ih hsent j hj hused
    · rw [if_neg hzero] at hsent
      obtain ⟨lines, hlines, hsent⟩ := Option.bind_eq_some_iff.mp hsent
      obtain ⟨later, hlater, -⟩ := Option.map_eq_some_iff.mp hsent
      rcases List.mem_cons.mp hj with rfl | hj
      · exact ⟨lines, hlines⟩
      · exact ih hlater j hj hused

/-- A linked server has one combination, and it is counted. -/
theorem filter_has_counted {links : List Link} (hx : x ∈ links) : ∃ m < 16, (comboOf m).has x = true ∧
    (counted links).filter (·.has x) = [{ comboOf m with count := links.countP (comboOf m).has }] ∧
    ∀ j ∈ counted links, j.has x = true → j.count ≠ 0 := by
  obtain ⟨pre, m, post, heq, hm, hrest⟩ := exists_split x
  have hlt : m < 16 := List.mem_range.mp (heq ▸ List.mem_append_right _ List.mem_cons_self)
  have hside : ∀ l : List Nat, (∀ n ∈ l, (comboOf n).has x = false) →
      (l.map fun n => ({ comboOf n with count := links.countP (comboOf n).has } : ChCapCombo)).filter (·.has x) =
        [] := by
    intro l hl
    rw [List.filter_eq_nil_iff]
    intro j hj hhas
    obtain ⟨n, hn, rfl⟩ := List.mem_map.mp hj
    exact Bool.false_ne_true ((hl n hn).symm.trans hhas)
  refine ⟨m, hlt, hm, ?_, fun j hj hhas => ?_⟩
  · unfold counted
    rw [heq, List.map_append, List.map_cons, List.filter_append, List.filter_cons, if_pos (by exact hm),
      hside pre fun n hn => hrest n (List.mem_append_left _ hn),
      hside post fun n hn => hrest n (List.mem_append_right _ hn)]
    rfl
  · obtain ⟨n, -, rfl⟩ := List.mem_map.mp hj
    exact (List.countP_pos_iff.mpr ⟨x, hx, hhas⟩).ne'

/-- The lines for a server are as long as what is sent of a line. -/
def Whole (s : Mesh) (x : Link) (source : Client) (ch : Channel) (changes : List WireChange) : Prop :=
  ∀ j ∈ s.combos, j.has x = true → ∀ lines, comboLines source ch changes j = some lines →
    ∀ line ∈ lines, line.length ≤ 510

theorem carried_of_shown {takes : Dir → UInt8 → Bool} (hwf : ∀ m ∈ changes, WellFormed takes m) :
    ∀ c ∈ (changes.filter fun m => x.isCapable m.caps && x.notCapable m.nocaps).map (·.seen x),
      Carried takes c := by
  intro c hc
  obtain ⟨m, hm, rfl⟩ := List.mem_map.mp hc
  have hm := hwf m (List.mem_of_mem_filter hm)
  exact ⟨hm.dir, hm.letter.2, hm.takes _, fun a ha => (hm.word _ a ha).1⟩

/-- A mode change is sent, and `x` is a linked server that is to hear of it. -/
structure Told (s : Mesh) (x : Link) (one : Nat) (source : Client) (ch : Channel) (changes : List WireChange)
    (takes : Dir → UInt8 → Bool) (sent : List (Nat × Line)) : Prop where
  reach : Reach Mesh.step anyStep Mesh.start s
  linked : x ∈ s.servList.links
  other : x.id ≠ one
  sendable : Sendable source ch
  wellFormed : ∀ m ∈ changes, WellFormed takes m
  sent : sendCapModeChanges s one source ch changes = some sent

/-- Each linked server reads the changes that are for it, once and in order: on a global
    channel, if the changes need capabilities of the table only and no line is cut. -/
theorem sendCapModeChanges_delivered {s : Mesh} {takes : Dir → UInt8 → Bool} {sent : List (Nat × Line)}
    (htold : Told s x one source ch changes takes sent) (hglobal : ch.chname.head? = some 35)
    (hknown : ∀ m ∈ changes, m.Known) (hwhole : Whole s x source ch changes) :
    Delivered takes x changes sent := by
  obtain ⟨hreach, hx, hone, hsend, hwf, hsent⟩ := htold
  have hcombos := combos_eq_counted hreach
  obtain ⟨m, hlt, hhas, hfilter, hused⟩ := filter_has_counted hx
  rw [← hcombos] at hfilter hused
  have hj := List.mem_filter.mp (hfilter ▸ List.mem_singleton_self _)
  obtain ⟨lines, hlines⟩ := comboLines_of_sendCombos _ hsent _ hj.1 (hused _ hj.1 hj.2)
  have hfor : linesFor x sent = lines := by
    rw [linesFor_sendCombos hx hone hglobal _ hused hsent, hfilter, List.flatMap_singleton, hlines]
    have hwhole' := hwhole _ hj.1 hj.2 lines hlines
    calc ((some lines).getD []).map (·.take 510) = lines.map id :=
          List.map_congr_left fun line hline => List.take_of_length_le (hwhole' line hline)
      _ = lines := List.map_id lines
  have hshown := @filterMap_shown takes x m changes hlt hhas hwf hknown
    (s.servList.links.countP (comboOf m).has)
  have htext : lines = serverLines (serverStart source ch (kind (comboOf m))) []
      ((changes.filter fun m => x.isCapable m.caps && x.notCapable m.nocaps).map (·.seen x)) := by
    rw [← hshown]
    unfold comboLines at hlines
    dsimp only at hlines
    split at hlines
    · exact (Option.some.inj hlines).symm
    · cases hlines
  have hread := serverLines_read hsend (kind (comboOf m)) _ [] (@carried_of_shown x changes takes hwf) (Nat.zero_le _)
  rw [← htext, List.nil_append] at hread
  rw [Delivered, hfor]
  exact hread

end Delivery

-- ============================================================================
-- One server
-- ============================================================================

/-- The state in which one server is linked. -/
def oneLink (caps : UInt32) : Mesh := Reach.perform Mesh.step Mesh.start (.establish ⟨1, caps⟩)

theorem oneLink_reach (caps : UInt32) : Reach Mesh.step anyStep Mesh.start (oneLink caps) :=
  Reach.performed .init trivial

/-- Only `o` has an argument. -/
def takesOp (_ : Dir) (c : UInt8) : Bool := c == 111

/-- `+o alice`. -/
def opAlice : WireChange := ⟨111, some [97, 108, 105, 99, 101], none, .add, 0, 0⟩

/-- `+t`, for servers that have some capabilities. -/
def topicLimit (caps : UInt32) : WireChange := ⟨116, none, none, .add, caps, 0⟩

theorem wellFormed_opAlice : WellFormed takesOp opAlice := by
  constructor
  · decide
  · decide
  · decide
  · intro ts6 a ha
    obtain rfl : a = [97, 108, 105, 99, 101] := by
      cases ts6 <;> exact (Option.some.inj ha).symm
    decide

theorem wellFormed_topicLimit (caps : UInt32) : WellFormed takesOp (topicLimit caps) := by
  refine ⟨?_, ?_, fun ts6 => ?_, fun ts6 a ha => ?_⟩
  · show (116 : UInt8) ≠ 0 ∧ (116 : UInt8) ≠ 43 ∧ (116 : UInt8) ≠ 45 ∧ (116 : UInt8) ≠ 32
    decide
  · show Dir.add ≠ .query
    decide
  · cases ts6 <;> rfl
  · cases ts6 <;> cases ha

theorem sendable_alice {chname : Bytes} (h : Word (allocateChannel chname 10).chname) :
    Sendable alice (allocateChannel chname 10) :=
  ⟨by decide, Or.inr (by decide), h⟩

/-- A change of modes by `alice` is told. -/
theorem told_alice {caps : UInt32} {chname : Bytes} {changes : List WireChange} {sent : List (Nat × Line)}
    (hlink : (oneLink caps).servList.links = [⟨1, caps⟩]) (hname : Word (allocateChannel chname 10).chname)
    (hwf : ∀ m ∈ changes, WellFormed takesOp m)
    (hsent : sendCapModeChanges (oneLink caps) 0 alice (allocateChannel chname 10) changes = some sent) :
    Told (oneLink caps) ⟨1, caps⟩ 0 alice (allocateChannel chname 10) changes takesOp sent :=
  ⟨oneLink_reach caps, by rw [hlink]; exact List.mem_singleton_self _, Nat.one_ne_zero, sendable_alice hname,
    hwf, hsent⟩

theorem whole_of_all {s : Mesh} {x : Link} {source : Client} {ch : Channel} {changes : List WireChange}
    (h : (s.combos.all fun j => ((comboLines source ch changes j).getD []).all fun line =>
      decide (line.length ≤ 510)) = true) : Whole s x source ch changes := by
  intro j hj _ lines hlines line hline
  have hall := List.all_eq_true.mp h j hj
  rw [hlines] at hall
  exact of_decide_eq_true (List.all_eq_true.mp hall line hline)

theorem known_topicLimit : (topicLimit 0).Known := ⟨by decide, by decide⟩

/-- `+ot alice` on `#a` arrives. -/
theorem delivered_alice : ∃ sent,
    Told (oneLink capTs6) ⟨1, capTs6⟩ 0 alice (allocateChannel [35, 97] 10) [opAlice, topicLimit 0] takesOp sent ∧
      Delivered takesOp ⟨1, capTs6⟩ [opAlice, topicLimit 0] sent := by
  obtain ⟨sent, hsent⟩ := Option.isSome_iff_exists.mp (show (sendCapModeChanges (oneLink capTs6) 0 alice
    (allocateChannel [35, 97] 10) [opAlice, topicLimit 0]).isSome = true by decide)
  have hwf : ∀ m ∈ [opAlice, topicLimit 0], WellFormed takesOp m :=
    List.forall_mem_cons.mpr ⟨wellFormed_opAlice, List.forall_mem_singleton.mpr (wellFormed_topicLimit 0)⟩
  have htold := told_alice (by decide) (by decide) hwf hsent
  refine ⟨sent, htold, sendCapModeChanges_delivered htold (by decide) ?_ ?_⟩
  · exact List.forall_mem_cons.mpr ⟨⟨by decide, by decide⟩, List.forall_mem_singleton.mpr known_topicLimit⟩
  · exact whole_of_all (by decide)

/-- Something is sent, and the server does not read what it should. -/
theorem exists_not_delivered {caps : UInt32} {chname : Bytes} {changes : List WireChange}
    (hlink : (oneLink caps).servList.links = [⟨1, caps⟩]) (hname : Word (allocateChannel chname 10).chname)
    (hwf : ∀ m ∈ changes, WellFormed takesOp m)
    (hwrong : ((sendCapModeChanges (oneLink caps) 0 alice (allocateChannel chname 10) changes).map fun sent =>
      decide ((linesFor ⟨1, caps⟩ sent).flatMap (readMode takesOp) =
        (changes.filter fun m => Link.isCapable ⟨1, caps⟩ m.caps && Link.notCapable ⟨1, caps⟩ m.nocaps).map
          (·.seen ⟨1, caps⟩))) = some false) :
    ∃ sent, Told (oneLink caps) ⟨1, caps⟩ 0 alice (allocateChannel chname 10) changes takesOp sent ∧
      ¬ Delivered takesOp ⟨1, caps⟩ changes sent := by
  obtain ⟨sent, hsent, hfalse⟩ := Option.map_eq_some_iff.mp hwrong
  exact ⟨sent, told_alice hlink hname hwf hsent, fun h => of_decide_eq_false hfalse h.1⟩

/-- Ten times `+o alice` and then `+t` so often that the line gets too long. -/
def longChanges : List WireChange := List.replicate 10 opAlice ++ List.replicate 440 (topicLimit 0)

/-- Nothing is told about a local channel, a change that needs a capability outside of the table
    is told to nobody, and of a line that is too long the arguments at its end are lost. -/
theorem not_delivered :
    (¬ ∀ (s : Mesh) (x : Link) (one : Nat) (source : Client) (ch : Channel) (changes : List WireChange)
      (takes : Dir → UInt8 → Bool) (sent : List (Nat × Line)),
      Told s x one source ch changes takes sent → (∀ m ∈ changes, m.Known) → Whole s x source ch changes →
      Delivered takes x changes sent) ∧
    (¬ ∀ (s : Mesh) (x : Link) (one : Nat) (source : Client) (ch : Channel) (changes : List WireChange)
      (takes : Dir → UInt8 → Bool) (sent : List (Nat × Line)),
      Told s x one source ch changes takes sent → ch.chname.head? = some 35 → Whole s x source ch changes →
      Delivered takes x changes sent) ∧
    ¬ ∀ (s : Mesh) (x : Link) (one : Nat) (source : Client) (ch : Channel) (changes : List WireChange)
      (takes : Dir → UInt8 → Bool) (sent : List (Nat × Line)),
      Told s x one source ch changes takes sent → ch.chname.head? = some 35 → (∀ m ∈ changes, m.Known) →
      Delivered takes x changes sent := by
  refine ⟨fun h => ?_, fun h => ?_, fun h => ?_⟩
  · obtain ⟨sent, htold, hnot⟩ := @exists_not_delivered capTs6 [38, 97] [topicLimit 0] (by decide)
      (by decide) (List.forall_mem_singleton.mpr (wellFormed_topicLimit 0)) (by decide)
    exact hnot (h _ _ _ _ _ _ _ _ htold (List.forall_mem_singleton.mpr known_topicLimit)
      (whole_of_all (by decide)))
  · obtain ⟨sent, htold, hnot⟩ := @exists_not_delivered (capTs6 ||| 0x4000) [35, 97] [topicLimit 0x4000]
      (by decide) (by decide) (List.forall_mem_singleton.mpr (wellFormed_topicLimit _))
      (by decide)
    exact hnot (h _ _ _ _ _ _ _ _ htold (by decide) (whole_of_all (by decide)))
  · have hlong : ∀ m ∈ longChanges, m = opAlice ∨ m = topicLimit 0 := by
      intro m hm
      rcases List.mem_append.mp hm with hm | hm
      · exact Or.inl (List.mem_replicate.mp hm).2
      · exact Or.inr (List.mem_replicate.mp hm).2
    have hwf : ∀ m ∈ longChanges, WellFormed takesOp m := fun m hm =>
      (hlong m hm).elim (fun h => h ▸ wellFormed_opAlice) fun h => h ▸ wellFormed_topicLimit 0
    obtain ⟨sent, htold, hnot⟩ := @exists_not_delivered capTs6 [35, 97] longChanges (by decide)
      (by decide +kernel) hwf (by decide +kernel)
    refine hnot (h _ _ _ _ _ _ _ _ htold (by decide) fun m hm => ?_)
    rcases hlong m hm with rfl | rfl
    · exact ⟨by decide, by decide⟩
    · exact known_topicLimit

end Bluebox.Propagate
