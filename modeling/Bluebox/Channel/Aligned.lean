/-
  Bluebox.Channel.Aligned

  Which parameter a mode letter uses (`modules/core/m_mode.c`).  The letters share
  one index; each handler decides for itself whether it takes the parameter before
  or after its checks.

  `Leaves` says when a letter is turned away without its parameter.  From then on
  the letters behind it use parameters that are not theirs.
-/
import Bluebox.Channel.FinalMode

namespace Bluebox.Aligned

open Bluebox.Lib Bluebox.Chan
open Bluebox.FinalMode (takesArg)
open Bluebox.ModeLine (lineCall hashServer)
open Bluebox.ModeBuf (hashServer_reach)

-- ============================================================================
-- Positions
-- ============================================================================

/-- The letter has a parameter in this direction. -/
def asks (dir : Dir) (c : UInt8) : Bool := dir != .query && takesArg dir c

/-- How many letters of a text have one. -/
def slots : Dir → Bytes → Nat
  | _, [] => 0
  | dir, c :: cs =>
    if c = 43 then slots .add cs
    else if c = 45 then slots .del cs
    else if c = 61 then slots .query cs
    else (if asks dir c then 1 else 0) + slots dir cs

/-- The direction behind a text. -/
def dirAfter : Dir → Bytes → Dir
  | dir, [] => dir
  | dir, c :: cs =>
    if c = 43 then dirAfter .add cs
    else if c = 45 then dirAfter .del cs
    else if c = 61 then dirAfter .query cs
    else dirAfter dir cs

/-- A change of a list is turned away: the list is not in use, access is missing, or there
    were too many changes. -/
def banTurnedAway (call : Call) (k : BanType) (w : Walk) : Bool :=
  !k.used call.cfg && call.source.myClient && w.dir == .add || call.alevel != .chanop ||
    call.source.myClient && maxModeParams ≤ w.modeLimit

/-- A letter is turned away before it takes its parameter. -/
def turnedAway (call : Call) (w : Walk) (c : UInt8) : Bool :=
  match banLetter c with
  | some k => banTurnedAway call k w
  | none => if c = 118 then call.alevel == .peon else call.alevel != .chanop

/-- A parameter is left for the letter behind. -/
def Leaves (call : Call) (w : Walk) (c : UInt8) : Prop :=
  asks w.dir c = true ∧ w.parn < call.parv.length ∧ turnedAway call w c = true

/-- A letter that has a parameter takes effect behind the text `pre`. -/
def Effective (call : Call) (ch : Channel) (pre : Bytes) (c : UInt8) : Prop :=
  ∃ w w', letters call pre (Walk.start ch) = some w ∧ letterStep call c w = some w' ∧
    asks w.dir c = true ∧ w.parn < call.parv.length ∧ (w'.ch ≠ w.ch ∨ w'.modeChanges ≠ w.modeChanges)

/-- The letter behind the text `pre` is turned away without its parameter. -/
def LeftAt (call : Call) (ch : Channel) (pre : Bytes) (c : UInt8) : Prop :=
  ∃ w, letters call pre (Walk.start ch) = some w ∧ Leaves call w c

/-- A letter of the text left its parameter for those behind it. -/
def LeftBefore (call : Call) (ch : Channel) (pre : Bytes) : Prop :=
  ∃ p d q, pre = p ++ d :: q ∧ LeftAt call ch p d

/-- Each letter that takes effect uses the parameter at its own position. -/
def ArgsAligned (call : Call) (ch : Channel) : Prop :=
  ∀ pre c post w, call.parv.getD 0 [] = pre ++ c :: post → Effective call ch pre c →
    letters call pre (Walk.start ch) = some w → w.parn = slots .add pre + 1

-- ============================================================================
-- What a handler takes
-- ============================================================================

/-- The handler takes a parameter if the condition holds. -/
structure Moves (P : Prop) (w w' : Walk) : Prop where
  dir : w'.dir = w.dir
  take : P → w'.parn = w.parn + 1
  stay : ¬ P → w'.parn = w.parn

section Handlers

variable {call : Call} {w w' : Walk} {P : Prop}

theorem moves_stay (hdir : w'.dir = w.dir) (hparn : w'.parn = w.parn) (h : ¬ P) : Moves P w w' :=
  ⟨hdir, fun hp => absurd hp h, fun _ => hparn⟩

theorem moves_take (hdir : w'.dir = w.dir) (hparn : w'.parn = w.parn + 1) (h : P) : Moves P w w' :=
  ⟨hdir, fun _ => hparn, fun hn => absurd h hn⟩

theorem count_parn (w : Walk) (call : Call) (n : Nat) : (w.count call n).1.parn = w.parn := by
  unfold Walk.count
  split <;> rfl

theorem chmSimple_moves (c : UInt8) (modeType : UInt32) (halfop : Bool) :
    Moves False w (chmSimple call c modeType halfop w) := by
  have hdir : (w.count call (9 + maxModeParams)).1.dir = w.dir := Walk.count_dir ..
  have hparn := count_parn w call (9 + maxModeParams)
  unfold chmSimple
  split
  · exact moves_stay rfl rfl id
  · generalize w.count call (9 + maxModeParams) = r at hdir hparn
    obtain ⟨v, full⟩ := r
    dsimp only at hdir hparn ⊢
    split
    · exact moves_stay hdir hparn id
    · split
      · exact moves_stay hdir hparn id
      · split <;> exact moves_stay hdir hparn id

theorem chmRegonly_moves (c : UInt8) : Moves False w (chmRegonly call c w) := by
  unfold chmRegonly
  split
  · exact moves_stay rfl rfl id
  · split
    · exact moves_stay rfl rfl id
    · split <;> exact moves_stay rfl rfl id
    · split <;> exact moves_stay rfl rfl id

theorem chmSslonly_moves (c : UInt8) : Moves False w (chmSslonly call c w) := by
  unfold chmSslonly
  split
  · exact moves_stay rfl rfl id
  · split
    · exact moves_stay rfl rfl id
    · split
      · exact moves_stay rfl rfl id
      · split <;> exact moves_stay rfl rfl id
    · split <;> exact moves_stay rfl rfl id

theorem chmLimit_moves (c : UInt8) :
    Moves (w.dir = .add ∧ w.parn < call.parv.length ∧ call.alevel = .chanop) w (chmLimit call c w) := by
  unfold chmLimit
  by_cases hop : call.alevel = .chanop
  · rw [if_neg (not_not_intro hop)]
    split
    · rename_i hdir
      exact moves_stay rfl rfl fun h => absurd (hdir.symm.trans h.1) (by decide)
    · rename_i hdir
      by_cases hlt : w.parn < call.parv.length
      · rw [if_pos hlt]
        dsimp only
        split
        · exact moves_take rfl rfl ⟨hdir, hlt, hop⟩
        · exact moves_take rfl rfl ⟨hdir, hlt, hop⟩
      · rw [if_neg hlt]
        exact moves_stay rfl rfl fun h => hlt h.2.1
    · rename_i hdir
      have hne : ¬ (w.dir = .add ∧ w.parn < call.parv.length ∧ call.alevel = .chanop) := fun h =>
        absurd (hdir.symm.trans h.1) (by decide)
      split
      · exact moves_stay rfl rfl hne
      · exact moves_stay rfl rfl hne
  · rw [if_pos hop]
    exact moves_stay rfl rfl fun h => hop h.2.2

theorem chmKey_moves (c : UInt8) :
    Moves (w.dir ≠ .query ∧ w.parn < call.parv.length ∧ call.alevel = .chanop) w (chmKey call c w) := by
  unfold chmKey
  by_cases hop : call.alevel = .chanop
  · rw [if_neg (not_not_intro hop)]
    split
    · rename_i hdir
      exact moves_stay rfl rfl fun h => h.1 hdir
    · rename_i hdir
      by_cases hlt : w.parn < call.parv.length
      · rw [if_pos hlt]
        dsimp only
        generalize (if call.source.myClient = true then fixKey (w.arg call)
          else fixKeyRemote (w.arg call)) = key
        have htake : w.dir ≠ .query ∧ w.parn < call.parv.length ∧ call.alevel = .chanop :=
          ⟨by rw [hdir]; decide, hlt, hop⟩
        split
        · exact moves_take rfl rfl htake
        · exact moves_take rfl rfl htake
      · rw [if_neg hlt]
        exact moves_stay rfl rfl fun h => hlt h.2.1
    · rename_i hdir
      by_cases hlt : w.parn < call.parv.length
      · rw [if_pos hlt]
        dsimp only
        have htake : w.dir ≠ .query ∧ w.parn < call.parv.length ∧ call.alevel = .chanop :=
          ⟨by rw [hdir]; decide, hlt, hop⟩
        split
        · exact moves_take rfl rfl htake
        · exact moves_take rfl rfl htake
      · rw [if_neg hlt]
        dsimp only
        split
        · exact moves_stay rfl rfl fun h => hlt h.2.1
        · exact moves_stay rfl rfl fun h => hlt h.2.1
  · rw [if_pos hop]
    exact moves_stay rfl rfl fun h => hop h.2.2

theorem chmStatus_moves (st : StatusMode) (c : UInt8) :
    Moves (w.dir ≠ .query ∧ w.parn < call.parv.length ∧ st.allowed call.alevel = true) w
      (chmStatus st call c w) := by
  unfold chmStatus
  by_cases hallowed : st.allowed call.alevel = true
  · rw [if_neg (by rw [hallowed]; decide)]
    by_cases hstop : w.dir = .query ∨ call.parv.length ≤ w.parn
    · rw [if_pos hstop]
      exact moves_stay rfl rfl fun h => hstop.elim h.1 (Nat.not_le_of_lt h.2.1)
    · rw [if_neg hstop]
      rw [not_or] at hstop
      have htake : w.dir ≠ .query ∧ w.parn < call.parv.length ∧ st.allowed call.alevel = true :=
        ⟨hstop.1, Nat.lt_of_not_le hstop.2, hallowed⟩
      have hdir := Walk.count_dir { w with parn := w.parn + 1 } call maxModeParams
      have hparn := count_parn { w with parn := w.parn + 1 } call maxModeParams
      dsimp only
      split
      · exact moves_take rfl rfl htake
      · split
        · exact moves_take rfl rfl htake
        · split
          · exact moves_take rfl rfl htake
          · generalize Walk.count { w with parn := w.parn + 1 } call maxModeParams = r at hdir hparn
            obtain ⟨v, full⟩ := r
            dsimp only at hdir hparn ⊢
            split
            · exact moves_take hdir hparn htake
            · split
              · split <;> exact moves_take hdir hparn htake
              · split
                · exact moves_take hdir hparn htake
                · split <;> exact moves_take hdir hparn htake
  · rw [if_pos (by simpa using hallowed)]
    exact moves_stay rfl rfl fun h => hallowed h.2.2

theorem count_full (w : Walk) (call : Call) (n : Nat) :
    (w.count call n).2 = (call.source.myClient && n ≤ w.modeLimit) := by
  unfold Walk.count
  cases call.source.myClient with
  | false => rfl
  | true =>
    simp only [if_true, Bool.true_and, decide_eq_decide]
    omega

/-- The first part of `chm_ban` takes the parameter unless the letter is turned away. -/
theorem banRequest_moves {k : BanType} {r : Option (Bytes × Bytes)} (h : banRequest call k w = some (w', r)) :
    Moves (w.dir ≠ .query ∧ w.parn < call.parv.length ∧ banTurnedAway call k w = false) w w' := by
  have hdir := Walk.count_dir w call maxModeParams
  have hparn := count_parn w call maxModeParams
  have hfull := count_full w call maxModeParams
  unfold banRequest at h
  generalize w.count call maxModeParams = cnt at h hdir hparn hfull
  obtain ⟨v, full⟩ := cnt
  dsimp only at h hdir hparn hfull
  unfold banTurnedAway
  rw [← hfull]
  split at h
  · rename_i hoff
    obtain ⟨rfl, -⟩ := Prod.mk.inj (Option.some.inj h)
    rw [Bool.and_eq_true] at hoff
    exact moves_stay rfl rfl fun hp => absurd hp.2.2 (by rw [hoff.1]; simp)
  · rename_i hon
    split at h
    · rename_i hquery
      have hno : ∀ q : Prop, ¬ (w.dir ≠ .query ∧ w.parn < call.parv.length ∧ q) := fun _ hp =>
        hquery.elim hp.1 (Nat.not_le_of_lt hp.2.1)
      split at h
      · obtain ⟨rfl, -⟩ := Prod.mk.inj (Option.some.inj h)
        exact moves_stay rfl rfl (hno _)
      · split at h
        · obtain ⟨rfl, -⟩ := Prod.mk.inj (Option.some.inj h)
          exact moves_stay rfl rfl (hno _)
        · obtain ⟨rfl, -⟩ := Prod.mk.inj (Option.some.inj h)
          exact moves_stay rfl rfl (hno _)
    · rename_i hquery
      rw [not_or, Nat.not_le] at hquery
      split at h
      · rename_i hop
        obtain ⟨rfl, -⟩ := Prod.mk.inj (Option.some.inj h)
        exact moves_stay rfl rfl fun hp => absurd hp.2.2 (by simp [hop])
      · rename_i hop
        split at h
        · rename_i hover
          obtain ⟨rfl, -⟩ := Prod.mk.inj (Option.some.inj h)
          exact moves_stay hdir hparn fun hp => absurd hp.2.2 (by simp [hover])
        · rename_i hunder
          -- the parameter is taken before anything else can go wrong
          have htake : w.dir ≠ .query ∧ w.parn < call.parv.length ∧
              (!k.used call.cfg && call.source.myClient && w.dir == .add || call.alevel != .chanop || full) =
                false := by
            refine ⟨hquery.1, hquery.2, ?_⟩
            rw [decide_eq_true hquery.2, Bool.and_true] at hon
            rw [Bool.eq_false_iff.mpr hon, Bool.eq_false_iff.mpr hunder]
            simpa using hop
          have htook : v.parn + 1 = w.parn + 1 := by rw [hparn]
          split at h
          · obtain ⟨rfl, -⟩ := Prod.mk.inj (Option.some.inj h)
            exact moves_take hdir htook htake
          · split at h
            · split at h
              · obtain ⟨rfl, -⟩ := Prod.mk.inj (Option.some.inj h)
                exact moves_take hdir htook htake
              · obtain ⟨rfl, -⟩ := Prod.mk.inj (Option.some.inj h)
                exact moves_take hdir htook htake
            · split at h
              · cases h
              · split at h
                · obtain ⟨rfl, -⟩ := Prod.mk.inj (Option.some.inj h)
                  exact moves_take hdir htook htake
                · obtain ⟨rfl, -⟩ := Prod.mk.inj (Option.some.inj h)
                  exact moves_take hdir htook htake

theorem chmBan_moves {k : BanType} {c : UInt8} (h : chmBan call c k w = some w') :
    Moves (w.dir ≠ .query ∧ w.parn < call.parv.length ∧ banTurnedAway call k w = false) w w' := by
  unfold chmBan at h
  split at h
  · cases h
  · rename_i v heq
    obtain rfl := Option.some.inj h
    exact banRequest_moves heq
  · rename_i v mask raw heq
    obtain rfl := Option.some.inj h
    have hat := @ModeLine.applyBan_at call c k v mask raw
    obtain ⟨hdir, htake, hstay⟩ := banRequest_moves heq
    exact ⟨hat.dir.trans hdir, fun hp => hat.parn.trans (htake hp), fun hn => hat.parn.trans (hstay hn)⟩

theorem Moves.congr {Q : Prop} (h : Moves P w w') (hpq : P ↔ Q) : Moves Q w w' :=
  ⟨h.dir, fun hq => h.take (hpq.mpr hq), fun hn => h.stay fun hp => hn (hpq.mp hp)⟩

/-- A letter that has no parameter in this direction. -/
theorem moves_none {c : UInt8} {q : Prop} (h : Moves False w w') (hnone : asks w.dir c = false) :
    Moves (asks w.dir c = true ∧ q) w w' :=
  h.congr ⟨False.elim, fun hp => by rw [hnone] at hp; cases hp.1⟩

/-- The letters of a status take their parameter when the access is there. -/
theorem status_congr {st : StatusMode} {c : UInt8} (hasks : asks w.dir c = (w.dir != .query))
    (haway : turnedAway call w c = !st.allowed call.alevel) :
    Moves (asks w.dir c = true ∧ w.parn < call.parv.length ∧ turnedAway call w c = false) w
      (chmStatus st call c w) := by
  refine (chmStatus_moves st c).congr ?_
  rw [hasks, haway, bne_iff_ne, Bool.not_eq_false']

/-- The letters that have a parameter. -/
theorem letter_of_asks {dir : Dir} {c : UInt8} (h : asks dir c = true) (hk : banLetter c = none) :
    c = 104 ∨ c = 107 ∨ c = 108 ∨ c = 111 ∨ c = 118 := by
  have htakes := (Bool.and_eq_true_iff.mp h).2
  unfold takesArg at htakes
  unfold banLetter at hk
  have hban : c ≠ 98 := fun heq => by subst heq; cases hk
  have hexcept : c ≠ 101 := fun heq => by subst heq; cases hk
  have hinvex : c ≠ 73 := fun heq => by subst heq; cases hk
  simp only [Bool.or_eq_true, Bool.and_eq_true, beq_iff_eq, List.contains_cons, List.contains_nil,
    Bool.or_false, hban, hexcept, hinvex, false_or] at htakes
  obtain (hk | hl) | ho | hh | hv := htakes
  · exact Or.inr (Or.inl hk)
  · exact Or.inr (Or.inr (Or.inl hl.1))
  · exact Or.inr (Or.inr (Or.inr (Or.inl ho)))
  · exact Or.inl hh
  · exact Or.inr (Or.inr (Or.inr (Or.inr hv)))

theorem away_op {c : UInt8} (h : turnedAway call w c = (call.alevel != .chanop)) :
    call.alevel = .chanop ↔ turnedAway call w c = false := by
  rw [h, bne_eq_false_iff_eq]

theorem modeTable_moves {c : UInt8} (hk : banLetter c = none) :
    Moves (asks w.dir c = true ∧ w.parn < call.parv.length ∧ turnedAway call w c = false) w
      (modeTable call c w) := by
  unfold modeTable
  split
  case h_1 h =>
    obtain rfl : c = 83 := UInt8.toNat_inj.mp h
    exact moves_none (chmSslonly_moves 83) (Bool.and_false _)
  case h_2 h =>
    obtain rfl : c = 104 := UInt8.toNat_inj.mp h
    exact status_congr (Bool.and_true _) rfl
  case h_3 h =>
    obtain rfl : c = 105 := UInt8.toNat_inj.mp h
    exact moves_none (chmSimple_moves 105 _ _) (Bool.and_false _)
  case h_4 h =>
    obtain rfl : c = 107 := UInt8.toNat_inj.mp h
    refine (chmKey_moves 107).congr (and_congr ?_ (and_congr_right' ?_))
    · rw [← bne_iff_ne]
      exact Iff.of_eq (congrArg (· = true) (Bool.and_true _).symm)
    · exact away_op rfl
  case h_5 h =>
    obtain rfl : c = 108 := UInt8.toNat_inj.mp h
    refine (chmLimit_moves 108).congr (and_congr ?_ (and_congr_right' ?_))
    · cases w.dir <;> decide
    · exact away_op rfl
  case h_6 h =>
    obtain rfl : c = 109 := UInt8.toNat_inj.mp h
    exact moves_none (chmSimple_moves 109 _ _) (Bool.and_false _)
  case h_7 h =>
    obtain rfl : c = 110 := UInt8.toNat_inj.mp h
    exact moves_none (chmSimple_moves 110 _ _) (Bool.and_false _)
  case h_8 h =>
    obtain rfl : c = 111 := UInt8.toNat_inj.mp h
    exact status_congr (Bool.and_true _) rfl
  case h_9 h =>
    obtain rfl : c = 112 := UInt8.toNat_inj.mp h
    exact moves_none (chmSimple_moves 112 _ _) (Bool.and_false _)
  case h_10 h =>
    obtain rfl : c = 114 := UInt8.toNat_inj.mp h
    exact moves_none (chmRegonly_moves 114) (Bool.and_false _)
  case h_11 h =>
    obtain rfl : c = 115 := UInt8.toNat_inj.mp h
    exact moves_none (chmSimple_moves 115 _ _) (Bool.and_false _)
  case h_12 h =>
    obtain rfl : c = 116 := UInt8.toNat_inj.mp h
    exact moves_none (chmSimple_moves 116 _ _) (Bool.and_false _)
  case h_13 h =>
    obtain rfl : c = 118 := UInt8.toNat_inj.mp h
    exact status_congr (Bool.and_true _) (Bool.not_not _).symm
  case h_14 h =>
    obtain rfl : c = 120 := UInt8.toNat_inj.mp h
    exact moves_none (chmSimple_moves 120 _ _) (Bool.and_false _)
  case h_15 =>
    rename_i _ hh _ hk' hl _ _ ho _ _ _ _ hv _
    refine moves_none (moves_stay rfl rfl id) (Bool.eq_false_iff.mpr fun hasks => ?_)
    obtain rfl | rfl | rfl | rfl | rfl := letter_of_asks hasks hk
    · exact hh rfl
    · exact hk' rfl
    · exact hl rfl
    · exact ho rfl
    · exact hv rfl

theorem letter_of_ban {c : UInt8} {k : BanType} (h : banLetter c = some k) :
    c = 98 ∨ c = 101 ∨ c = 73 := by
  unfold banLetter at h
  split at h
  · exact Or.inl ‹_›
  · split at h
    · exact Or.inr (Or.inl ‹_›)
    · split at h
      · exact Or.inr (Or.inr ‹_›)
      · cases h

/-- A letter other than the signs takes its parameter unless it is turned away. -/
theorem letterStep_moves {c : UInt8} (hadd : c ≠ 43) (hdel : c ≠ 45) (hquery : c ≠ 61)
    (h : letterStep call c w = some w') :
    Moves (asks w.dir c = true ∧ w.parn < call.parv.length ∧ turnedAway call w c = false) w w' := by
  unfold letterStep at h
  rw [if_neg hadd, if_neg hdel, if_neg hquery] at h
  split at h
  · rename_i k hk
    have hasks : asks w.dir c = (w.dir != .query) := by
      obtain rfl | rfl | rfl := letter_of_ban hk
      · exact Bool.and_true _
      · exact Bool.and_true _
      · exact Bool.and_true _
    have haway : turnedAway call w c = banTurnedAway call k w := by
      unfold turnedAway
      rw [hk]
    refine (chmBan_moves h).congr ?_
    rw [hasks, haway, bne_iff_ne]
  · rename_i hk
    obtain rfl := Option.some.inj h
    exact modeTable_moves hk

end Handlers

-- ============================================================================
-- A text
-- ============================================================================

section Run

variable {call : Call} {ch : Channel}

theorem letters_append (pre : Bytes) (c : UInt8) (w : Walk) :
    letters call (pre ++ [c]) w = (letters call pre w).bind (letterStep call c) := by
  induction pre generalizing w with
  | nil =>
    have hnil : letters call [] w = some w := rfl
    rw [List.nil_append, hnil, Option.bind_some, letters]
    cases letterStep call c w with
    | none => rfl
    | some v => rfl
  | cons d pre ih =>
    rw [List.cons_append, letters, letters]
    cases letterStep call d w with
    | none => rfl
    | some v => exact ih v

theorem dirAfter_append (dir : Dir) (pre : Bytes) (c : UInt8) :
    dirAfter dir (pre ++ [c]) = dirAfter (dirAfter dir pre) [c] := by
  fun_induction dirAfter dir pre with
  | case1 dir => rfl
  | case2 dir cs ih => rw [List.cons_append, dirAfter, if_pos rfl, ih]
  | case3 dir cs hadd ih => rw [List.cons_append, dirAfter, if_neg hadd, if_pos rfl, ih]
  | case4 dir cs hadd hdel ih =>
    rw [List.cons_append, dirAfter, if_neg hadd, if_neg hdel, if_pos rfl, ih]
  | case5 dir c cs hadd hdel hquery ih =>
    rw [List.cons_append, dirAfter, if_neg hadd, if_neg hdel, if_neg hquery, ih]

theorem slots_append (dir : Dir) (pre : Bytes) (c : UInt8) :
    slots dir (pre ++ [c]) = slots dir pre + slots (dirAfter dir pre) [c] := by
  fun_induction slots dir pre with
  | case1 dir => exact (Nat.zero_add _).symm
  | case2 dir cs ih =>
    rw [List.cons_append, slots, if_pos rfl, dirAfter, if_pos rfl, ih]
  | case3 dir cs hadd ih =>
    rw [List.cons_append, slots, if_neg hadd, if_pos rfl, dirAfter, if_neg hadd, if_pos rfl, ih]
  | case4 dir cs hadd hdel ih =>
    rw [List.cons_append, slots, if_neg hadd, if_neg hdel, if_pos rfl, dirAfter, if_neg hadd, if_neg hdel,
      if_pos rfl, ih]
  | case5 dir c cs hadd hdel hquery ih =>
    rw [List.cons_append, slots, if_neg hadd, if_neg hdel, if_neg hquery, dirAfter, if_neg hadd,
      if_neg hdel, if_neg hquery, ih, Nat.add_assoc]

theorem leftBefore_nil : ¬ LeftBefore call ch [] := by
  rintro ⟨p, d, q, heq, -⟩
  exact absurd heq.symm (List.append_ne_nil_of_right_ne_nil p (List.cons_ne_nil d q))

theorem leftBefore_append (pre : Bytes) (c : UInt8) :
    LeftBefore call ch (pre ++ [c]) ↔ LeftBefore call ch pre ∨ LeftAt call ch pre c := by
  constructor
  · rintro ⟨p, d, q, heq, hleft⟩
    cases q using List.reverseRecOn with
    | nil =>
      obtain ⟨rfl, hd⟩ := List.append_inj' heq rfl
      obtain rfl := (List.cons.inj hd).1
      exact Or.inr hleft
    | append_singleton q b =>
      rw [← List.cons_append, ← List.append_assoc] at heq
      exact Or.inl ⟨p, d, q, (List.append_inj' heq rfl).1, hleft⟩
  · rintro (⟨p, d, q, rfl, hleft⟩ | hleft)
    · exact ⟨p, d, q ++ [c], by rw [List.append_assoc, List.cons_append], hleft⟩
    · exact ⟨pre, c, [], rfl, hleft⟩

/-- The index behind a text: it is at the next position unless a parameter was left. -/
structure Position (call : Call) (ch : Channel) (pre : Bytes) (w : Walk) : Prop where
  dir : w.dir = dirAfter .add pre
  le : w.parn ≤ slots .add pre + 1
  iff : w.parn < call.parv.length → (w.parn = slots .add pre + 1 ↔ ¬ LeftBefore call ch pre)

theorem Position.quiet {pre : Bytes} {c : UInt8} {w w' : Walk} (h : Position call ch pre w)
    (hletters : letters call pre (Walk.start ch) = some w) (hparn : w'.parn = w.parn)
    (hdir : w'.dir = dirAfter w.dir [c]) (hslots : slots w.dir [c] = 0) (hasks : asks w.dir c = false) :
    Position call ch (pre ++ [c]) w' := by
  have hleft : ¬ LeftAt call ch pre c := by
    rintro ⟨v, hv, hleaves⟩
    obtain rfl := Option.some.inj (hletters.symm.trans hv)
    exact absurd hleaves.1 (by rw [hasks]; decide)
  rw [h.dir] at hslots
  refine ⟨by rw [hdir, h.dir, dirAfter_append], ?_, fun hlt => ?_⟩
  · rw [hparn, slots_append, hslots]
    exact h.le
  · rw [hparn] at hlt ⊢
    rw [slots_append, hslots, leftBefore_append, or_iff_left hleft]
    exact h.iff hlt

theorem dirAfter_letter {dir : Dir} {c : UInt8} (hadd : c ≠ 43) (hdel : c ≠ 45) (hquery : c ≠ 61) :
    dirAfter dir [c] = dir := by
  rw [dirAfter, if_neg hadd, if_neg hdel, if_neg hquery, dirAfter]

theorem slots_letter {dir : Dir} {c : UInt8} (hadd : c ≠ 43) (hdel : c ≠ 45) (hquery : c ≠ 61) :
    slots dir [c] = if asks dir c then 1 else 0 := by
  rw [slots, if_neg hadd, if_neg hdel, if_neg hquery, slots, Nat.add_zero]

/-- A letter with a parameter that is there: it is taken or left. -/
theorem Position.letter {pre : Bytes} {c : UInt8} {w w' : Walk} (h : Position call ch pre w)
    (hletters : letters call pre (Walk.start ch) = some w) (hstep : letterStep call c w = some w')
    (hadd : c ≠ 43) (hdel : c ≠ 45) (hquery : c ≠ 61) : Position call ch (pre ++ [c]) w' := by
  have hmoves := letterStep_moves hadd hdel hquery hstep
  have hdir : w'.dir = dirAfter w.dir [c] := by rw [hmoves.dir, dirAfter_letter hadd hdel hquery]
  have hslots := @slots_letter w.dir c hadd hdel hquery
  by_cases hasks : asks w.dir c = true
  · rw [if_pos hasks] at hslots
    have hnext : slots .add (pre ++ [c]) = slots .add pre + 1 := by
      rw [slots_append, ← h.dir, hslots]
    have hle := h.le
    refine ⟨by rw [hdir, h.dir, dirAfter_append], ?_, fun hlt => ?_⟩
    · by_cases htake : w.parn < call.parv.length ∧ turnedAway call w c = false
      · rw [hmoves.take ⟨hasks, htake⟩]
        omega
      · rw [hmoves.stay fun hp => htake hp.2]
        omega
    · rw [hnext, leftBefore_append]
      by_cases haway : turnedAway call w c = true
      · -- the index stays behind from here on
        rw [hmoves.stay fun hp => absurd haway (by rw [hp.2.2]; decide)] at hlt ⊢
        have hleft : LeftAt call ch pre c := ⟨w, hletters, hasks, hlt, haway⟩
        exact iff_of_false (by omega) fun hno => hno (Or.inr hleft)
      · have hwas : w.parn < call.parv.length := by
          by_contra hout
          rw [hmoves.stay fun hp => hout hp.2.1] at hlt
          exact hout hlt
        have hleft : ¬ LeftAt call ch pre c := by
          rintro ⟨v, hv, hleaves⟩
          obtain rfl := Option.some.inj (hletters.symm.trans hv)
          exact haway hleaves.2.2
        rw [hmoves.take ⟨hasks, hwas, Bool.eq_false_iff.mpr haway⟩, or_iff_left hleft, ← h.iff hwas]
        omega
  · rw [if_neg hasks] at hslots
    exact h.quiet hletters (hmoves.stay fun hp => hasks hp.1) hdir hslots (Bool.eq_false_iff.mpr hasks)

theorem Position.step {pre : Bytes} {c : UInt8} {w w' : Walk} (h : Position call ch pre w)
    (hletters : letters call pre (Walk.start ch) = some w) (hstep : letterStep call c w = some w') :
    Position call ch (pre ++ [c]) w' := by
  by_cases hadd : c = 43
  · subst hadd
    obtain rfl := Option.some.inj hstep
    exact h.quiet hletters rfl rfl rfl (Bool.and_false _)
  · by_cases hdel : c = 45
    · subst hdel
      obtain rfl := Option.some.inj hstep
      exact h.quiet hletters rfl rfl rfl (Bool.and_false _)
    · by_cases hquery : c = 61
      · subst hquery
        obtain rfl := Option.some.inj hstep
        exact h.quiet hletters rfl rfl rfl (Bool.and_false _)
      · exact h.letter hletters hstep hadd hdel hquery

theorem position {pre : Bytes} {w : Walk} (h : letters call pre (Walk.start ch) = some w) :
    Position call ch pre w := by
  induction pre using List.reverseRecOn generalizing w with
  | nil =>
    obtain rfl := Option.some.inj h
    exact ⟨rfl, Nat.le_refl 1, fun _ => iff_of_true rfl leftBefore_nil⟩
  | append_singleton pre c ih =>
    rw [letters_append] at h
    obtain ⟨v, hv, hstep⟩ := Option.bind_eq_some_iff.mp h
    exact (ih hv).step hv hstep

-- ============================================================================
-- The letters that take effect
-- ============================================================================

/-- Each letter that takes effect uses the parameter at its own position exactly when none
    of them comes behind one that left its parameter. -/
theorem argsAligned_iff (call : Call) (ch : Channel) :
    ArgsAligned call ch ↔
      ∀ pre c post, call.parv.getD 0 [] = pre ++ c :: post → Effective call ch pre c →
        ¬ LeftBefore call ch pre := by
  constructor
  · intro h pre c post htext heffective
    obtain ⟨w, w', hw, hstep, hasks, hlt, hchange⟩ := heffective
    have hparn := h pre c post w htext ⟨w, w', hw, hstep, hasks, hlt, hchange⟩ hw
    exact ((position hw).iff hlt).mp hparn
  · intro h pre c post w htext heffective hw
    have hnone := h pre c post htext heffective
    obtain ⟨v, v', hv, -, -, hlt, -⟩ := heffective
    obtain rfl := Option.some.inj (hw.symm.trans hv)
    exact ((position hw).iff hlt).mpr hnone

end Run

-- ============================================================================
-- A ban too many
-- ============================================================================

/-- `MODE # +bbbbbk a b c d e f`. -/
def fiveBans : Bytes :=
  [77, 79, 68, 69, 32, 35, 32, 43, 98, 98, 98, 98, 98, 107, 32, 97, 32, 98, 32, 99, 32, 100, 32, 101, 32, 102]

/-- The call for the line. -/
def fiveBansCall : Call :=
  modeCall plainConfig hashServer alice ((hashServer.table.chan 0).findMembership 0)
    ⟨0, [[43, 98, 98, 98, 98, 98, 107], [97], [98], [99], [100], [101], [102]], fun _ => none, 20⟩

/-- The fifth ban leaves `e`, which becomes the key. -/
theorem not_argsAligned : ¬ ∀ (cfg : Config) (srv : Server) (c p : Nat) (source : Client) (operspy : Bool)
    (history : Bytes → Option Nat) (now : Int) (line : Bytes) (call : Call),
    Reach (Server.step cfg) anyStep Server.start srv → srv.client c = some source →
    source.myClient = true → lineCall cfg srv c source operspy history now line = some (p, call) →
    call.alevel ≠ .peon → ArgsAligned call (srv.table.chan p) := by
  intro h
  have hwalk : ((letters fiveBansCall [43, 98, 98, 98, 98, 98] (Walk.start (hashServer.table.chan 0))).bind
      fun w => (letterStep fiveBansCall 107 w).map fun w' =>
        (w.dir, w.parn, w.modeChanges.length, w'.modeChanges.length)) = some (.add, 5, 4, 5) := by
    decide
  obtain ⟨w, hw, hstep⟩ := Option.bind_eq_some_iff.mp hwalk
  obtain ⟨w', hw', hvalues⟩ := Option.map_eq_some_iff.mp hstep
  obtain ⟨hdir, hrest⟩ := Prod.mk.inj hvalues
  obtain ⟨hparn, hrest⟩ := Prod.mk.inj hrest
  obtain ⟨hbefore, hafter⟩ := Prod.mk.inj hrest
  have heffective : Effective fiveBansCall (hashServer.table.chan 0) [43, 98, 98, 98, 98, 98] 107 := by
    refine ⟨w, w', hw, hw', by rw [hdir]; rfl, by rw [hparn]; decide, Or.inr fun heq => ?_⟩
    rw [heq, hbefore] at hafter
    exact absurd hafter (by decide)
  have haligned := h plainConfig hashServer 0 0 alice false (fun _ => none) 20 fiveBans fiveBansCall
    hashServer_reach (by decide) rfl (by rfl) (by decide)
  have hsix := haligned [43, 98, 98, 98, 98, 98] 107 [] w rfl heffective hw
  rw [hparn] at hsix
  exact absurd hsix (by decide)

end Bluebox.Aligned
