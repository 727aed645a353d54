/-
  Bluebox.Message.Targets

  The limit on new targets (`add_target` in `modules/core/m_message.c`): ten slots used as a
  ring, and a count of those in use that is drained by one for each minute, whenever a
  message to a new target comes.
-/
import Bluebox.Lib.Meter
import Mathlib.Logic.Function.Basic

namespace Bluebox.Message

open Bluebox.Lib

-- ============================================================================
-- The slots
-- ============================================================================

/-- What a client has for its targets: the slots, `FREE_TARGET`, `USED_TARGETS`, the flag
    `FLAGS_TGCHANGE` and `target_last`. -/
structure Targets (ι : Type) where
  targets : Nat → Option ι
  freeTarget : Nat
  usedTargets : Nat
  tgChange : Bool
  targetLast : Int

/-- `PREV_FREE_TARGET` and `PREV_TARGET`. -/
def prevTarget (i : Nat) : Nat := if i = 0 then 9 else i - 1

/-- `NEXT_TARGET`. -/
def nextTarget (i : Nat) : Nat := if i = 9 then 0 else (i + 1) % 256

variable {ι : Type}

/-- The slots that `j` turns of the loop look at, from the slot `i` back. -/
def slotsFrom (targets : Nat → Option ι) : Nat → Nat → List (Option ι)
  | 0, _ => []
  | j + 1, i => targets i :: slotsFrom targets j (prevTarget i)

/-- The slots in use, the newest first. -/
def Targets.slots (s : Targets ι) : List (Option ι) := slotsFrom s.targets s.usedTargets (prevTarget s.freeTarget)

/-- Registration, with the count it starts from; the slots are zeroed with the client. -/
def Targets.start (used : Nat) : Targets ι := ⟨fun _ => none, 0, used, false, 0⟩

/-- How many slots can be cleared, an `unsigned int`. -/
def Targets.expired (s : Targets ι) (now : Int) : Nat := ((now - s.targetLast).tdiv 60 % 2 ^ 32).toNat

/-- What is done before a new target is recorded; `none` where the list is full. -/
def Targets.clear (s : Targets ι) (now : Int) : Option (Targets ι) :=
  if s.usedTargets ≠ 0 then
    -- first message after connect
    if s.tgChange = false then some { s with tgChange := true, targetLast := now }
    -- clear as many targets as we can
    else if s.expired now ≠ 0 then
      some { s with
        usedTargets := if s.expired now > s.usedTargets then 0 else s.usedTargets - s.expired now
        targetLast := now }
    -- cant clear any, full target list
    else if s.usedTargets = 10 then none
    else some s
  else some { s with targetLast := now, tgChange := true }

/-- The last three lines of `add_target`. -/
def Targets.record (s : Targets ι) (target : ι) : Targets ι :=
  { s with
    targets := Function.update s.targets s.freeTarget (some target)
    freeTarget := nextTarget s.freeTarget
    usedTargets := (s.usedTargets + 1) % 256 }

variable [DecidableEq ι]

/-- `hunt for an existing target`. -/
def hunt (targets : Nat → Option ι) (target : ι) : Nat → Nat → Bool
  | 0, _ => false
  | j + 1, i => if targets i = some target then true else hunt targets target j (prevTarget i)

/-- `add_target`; `source` is the client itself. -/
def addTarget (source : ι) (s : Targets ι) (target : ι) (now : Int) : Targets ι × Bool :=
  if source = target then (s, true)
  else if s.usedTargets ≠ 0 ∧ hunt s.targets target s.usedTargets (prevTarget s.freeTarget) = true then (s, true)
  else
    match s.clear now with
    | none => (s, false)
    | some s' => (s'.record target, true)

-- ============================================================================
-- Runs
-- ============================================================================

/-- A call, by one client. -/
structure TargetCall (ι : Type) where
  target : ι
  now : Int

/-- The target is remembered: a slot in use holds it. -/
def Targets.Remembered (s : Targets ι) (target : ι) : Prop := some target ∈ s.slots

instance (s : Targets ι) (target : ι) : Decidable (s.Remembered target) :=
  inferInstanceAs (Decidable (some target ∈ s.slots))

/-- A call that is admitted, with a target that was not remembered. -/
def admitsNew (source : ι) (s : Targets ι) (c : TargetCall ι) : Bool :=
  (addTarget source s c.target c.now).2 && !decide (s.Remembered c.target)

/-- The same, of another client than the source. -/
def admitsOther (source : ι) (s : Targets ι) (c : TargetCall ι) : Bool :=
  admitsNew source s c && !decide (source = c.target)

/-- A call, with what counts. -/
def targetStep (source : ι) (counts : ι → Targets ι → TargetCall ι → Bool) (s : Targets ι) (c : TargetCall ι) :
    Targets ι × Bool :=
  ((addTarget source s c.target c.now).1, counts source s c)

/-- The targets that calls record, the newest first. -/
def recorded (source : ι) : Targets ι → List (TargetCall ι) → List ι
  | _, [] => []
  | s, c :: l =>
    recorded source (addTarget source s c.target c.now).1 l ++ if admitsOther source s c then [c.target] else []

/-- The limit, for the calls that count. -/
def TargetLimit (counts : ι → Targets ι → TargetCall ι → Bool) : Prop :=
  ∀ (source : ι) (used : Nat) (calls : List (TargetCall ι)), used = 0 ∨ used = 6 →
    (calls.map TargetCall.now).Pairwise (· ≤ ·) →
      (stateAfter (targetStep source counts) (Targets.start used) calls).usedTargets ≤ 10 ∧
      (stateAfter (targetStep source counts) (Targets.start used) calls).freeTarget ≤ 9 ∧
      (stateAfter (targetStep source counts) (Targets.start used) calls).slots =
        ((recorded source (Targets.start used) calls).map some ++ List.replicate 10 none).take
          (stateAfter (targetStep source counts) (Targets.start used) calls).usedTargets ∧
      ∀ t₀ t₁, t₀ ≤ t₁ →
        (passedIn TargetCall.now (targetStep source counts) t₀ t₁ (Targets.start used) calls : Int) ≤
          10 + (t₁ - t₀) / 60

-- ============================================================================
-- The ring
-- ============================================================================

omit [DecidableEq ι] in
theorem slotsFrom_take {targets : Nat → Option ι} {n m i : Nat} (h : n ≤ m) :
    slotsFrom targets n i = (slotsFrom targets m i).take n := by
  induction n generalizing m i with
  | zero => rfl
  | succ n ih =>
    obtain ⟨m, rfl⟩ : ∃ k, m = k + 1 := ⟨m - 1, by omega⟩
    show targets i :: slotsFrom targets n (prevTarget i) = targets i :: (slotsFrom targets m (prevTarget i)).take n
    rw [ih (show n ≤ m by omega)]

theorem prevTarget_le {i : Nat} (h : i ≤ 9) : prevTarget i ≤ 9 := by
  unfold prevTarget
  split <;> omega

theorem nextTarget_le {i : Nat} (h : i ≤ 9) : nextTarget i ≤ 9 := by
  unfold nextTarget
  split <;> omega

theorem prevTarget_nextTarget {i : Nat} (h : i ≤ 9) : prevTarget (nextTarget i) = i := by
  unfold prevTarget nextTarget
  by_cases hlast : i = 9
  · rw [if_pos hlast, if_pos rfl, hlast]
  · rw [if_neg hlast, if_neg (by omega)]
    omega

omit [DecidableEq ι] in
/-- A slot that the loop does not come to does not matter to it. -/
theorem slotsFrom_update {targets : Nat → Option ι} {j i f : Nat} {x : Option ι} (hi : i ≤ 9) (hf : f ≤ 9)
    (hj : j ≤ (i + 10 - f) % 10) : slotsFrom (Function.update targets f x) j i = slotsFrom targets j i := by
  induction j generalizing i with
  | zero => rfl
  | succ j ih =>
    have hne : i ≠ f := by rintro rfl; omega
    have hprev : j ≤ (prevTarget i + 10 - f) % 10 := by
      unfold prevTarget
      split <;> omega
    unfold slotsFrom
    rw [Function.update_of_ne hne, ih (prevTarget_le hi) hprev]

omit [DecidableEq ι] in
/-- A record pushes out the oldest of the ten. -/
theorem slotsFrom_record {targets : Nat → Option ι} {f : Nat} {x : Option ι} (hf : f ≤ 9) :
    slotsFrom (Function.update targets f x) 10 (prevTarget (nextTarget f)) =
      x :: (slotsFrom targets 10 (prevTarget f)).take 9 := by
  have hj : 9 ≤ (prevTarget f + 10 - f) % 10 := by
    unfold prevTarget
    split <;> omega
  rw [prevTarget_nextTarget hf]
  show Function.update targets f x f :: slotsFrom (Function.update targets f x) 9 (prevTarget f) = _
  rw [Function.update_self, slotsFrom_update (prevTarget_le hf) hf hj, slotsFrom_take (show 9 ≤ 10 by decide)]

theorem hunt_iff {targets : Nat → Option ι} {target : ι} {j i : Nat} :
    hunt targets target j i = true ↔ some target ∈ slotsFrom targets j i := by
  induction j generalizing i with
  | zero => exact ⟨fun h => (by cases h), fun h => (by cases h)⟩
  | succ j ih =>
    unfold hunt slotsFrom
    rw [List.mem_cons, ← ih]
    by_cases hhere : targets i = some target
    · rw [if_pos hhere]
      exact ⟨fun _ => Or.inl hhere.symm, fun _ => rfl⟩
    · rw [if_neg hhere]
      exact ⟨Or.inr, fun h => h.resolve_left fun h' => hhere h'.symm⟩

-- ============================================================================
-- What a call does
-- ============================================================================

/-- What holds of the counts at a time. -/
structure Targets.Ok (s : Targets ι) (now : Int) : Prop where
  free : s.freeTarget ≤ 9
  used : s.usedTargets ≤ 10
  fresh : s.tgChange = false → s.usedTargets ≤ 6
  last : s.tgChange = true → s.targetLast ≤ now

/-- How long the slots are kept, modulo the `unsigned int`. -/
def Targets.idle (s : Targets ι) (now : Int) : Int := (now - s.targetLast) % (60 * 2 ^ 32)

/-- The potential: a minute for each slot that is free or that could be cleared. -/
def Targets.credit (s : Targets ι) (now : Int) : Int :=
  if s.tgChange = true then 60 * (10 - s.usedTargets) + min (s.idle now) (60 * s.usedTargets) else 600

variable {s s' : Targets ι} {source target : ι} {now now' : Int} {c : TargetCall ι}

omit [DecidableEq ι] in
theorem Targets.expired_eq (h : s.targetLast ≤ now) : (s.expired now : Int) = s.idle now / 60 := by
  unfold Targets.expired Targets.idle
  rw [Int.tdiv_eq_ediv_of_nonneg (by omega)]
  omega

omit [DecidableEq ι] in
theorem Targets.idle_nonneg : 0 ≤ s.idle now := Int.emod_nonneg _ (by decide)

omit [DecidableEq ι] in
theorem Targets.credit_of_tgChange (h : s.tgChange = true) :
    s.credit now = 60 * (10 - s.usedTargets) + min (s.idle now) (60 * s.usedTargets) := if_pos h

omit [DecidableEq ι] in
/-- Before a record there is room, and the potential is not more than before. -/
theorem Targets.clear_ok (hok : s.Ok now) (h : s.clear now = some s') :
    s'.targets = s.targets ∧ s'.freeTarget = s.freeTarget ∧ s'.tgChange = true ∧ s'.targetLast ≤ now ∧
      s'.usedTargets ≤ 9 ∧ s'.usedTargets ≤ s.usedTargets ∧ s'.idle now < 60 ∧
      60 * (10 - s'.usedTargets : Int) + s'.idle now ≤ s.credit now := by
  obtain ⟨-, hused, hfresh, hlast⟩ := hok
  have hnow : ∀ {u : Nat} {b : Bool}, Targets.idle ⟨s.targets, s.freeTarget, u, b, now⟩ now = 0 := by
    intro u b
    show (now - now) % (60 * 2 ^ 32) = 0
    rw [Int.sub_self]
    rfl
  unfold Targets.clear at h
  by_cases hnone : s.usedTargets ≠ 0
  · rw [if_pos hnone] at h
    cases htg : s.tgChange with
    | false =>
      have hfresh' := hfresh htg
      rw [if_pos htg] at h
      obtain rfl := Option.some.inj h
      refine ⟨rfl, rfl, rfl, le_refl _, show s.usedTargets ≤ 9 by omega, le_refl _, ?_, ?_⟩
      · rw [hnow]
        decide
      · rw [hnow]
        unfold Targets.credit
        rw [if_neg (by rw [htg]; exact Bool.false_ne_true)]
        show 60 * (10 - (s.usedTargets : Int)) + 0 ≤ 600
        omega
    | true =>
      have hexpired := Targets.expired_eq (hlast htg)
      have hidle : 0 ≤ s.idle now := Targets.idle_nonneg
      rw [if_neg (by rw [htg]; decide)] at h
      rw [Targets.credit_of_tgChange htg]
      by_cases hsome : s.expired now ≠ 0
      · rw [if_pos hsome] at h
        obtain rfl := Option.some.inj h
        have hsub : (if s.expired now > s.usedTargets then 0 else s.usedTargets - s.expired now) =
            s.usedTargets - s.expired now := by
          split <;> omega
        refine ⟨rfl, rfl, htg, le_refl _, ?_, ?_, ?_, ?_⟩
        · show (if s.expired now > s.usedTargets then 0 else s.usedTargets - s.expired now) ≤ 9
          omega
        · show (if s.expired now > s.usedTargets then 0 else s.usedTargets - s.expired now) ≤ s.usedTargets
          omega
        · rw [hnow]
          decide
        · rw [hnow]
          show 60 * (10 - ((if s.expired now > s.usedTargets then 0 else s.usedTargets - s.expired now : Nat) : Int)) + 0 ≤ _
          rw [hsub]
          omega
      · rw [if_neg hsome] at h
        by_cases hfull : s.usedTargets = 10
        · rw [if_pos hfull] at h
          cases h
        · rw [if_neg hfull] at h
          obtain rfl := Option.some.inj h
          have hshort : s.idle now < 60 := by omega
          exact ⟨rfl, rfl, htg, hlast htg, by omega, le_refl _, hshort, by omega⟩
  · have hzero : s.usedTargets = 0 := not_not.mp hnone
    rw [if_neg hnone] at h
    obtain rfl := Option.some.inj h
    refine ⟨rfl, rfl, rfl, le_refl _, show s.usedTargets ≤ 9 by omega, le_refl _, ?_, ?_⟩
    · rw [hnow]
      decide
    · have hidle : 0 ≤ s.idle now := Targets.idle_nonneg
      rw [hnow]
      unfold Targets.credit
      show 60 * (10 - (s.usedTargets : Int)) + 0 ≤ _
      split <;> omega

/-- A call to another target that is not remembered; every other call changes nothing. -/
theorem addTarget_cases (source : ι) (s : Targets ι) (target : ι) (now : Int) :
    (addTarget source s target now = (s, true) ∧ (source = target ∨ s.Remembered target)) ∨
    (addTarget source s target now = (s, false) ∧ source ≠ target ∧ ¬ s.Remembered target) ∨
    ∃ s', s.clear now = some s' ∧ addTarget source s target now = (s'.record target, true) ∧ source ≠ target ∧
      ¬ s.Remembered target := by
  have hhunt : s.usedTargets ≠ 0 ∧ hunt s.targets target s.usedTargets (prevTarget s.freeTarget) = true ↔
      s.Remembered target := by
    rw [hunt_iff]
    refine ⟨fun h => h.2, fun h => ⟨fun hzero => ?_, h⟩⟩
    have hslots : some target ∈ slotsFrom s.targets s.usedTargets (prevTarget s.freeTarget) := h
    rw [hzero] at hslots
    cases hslots
  unfold addTarget
  by_cases hself : source = target
  · rw [if_pos hself]
    exact Or.inl ⟨rfl, Or.inl hself⟩
  · rw [if_neg hself]
    by_cases hremembered : s.Remembered target
    · rw [if_pos (hhunt.mpr hremembered)]
      exact Or.inl ⟨rfl, Or.inr hremembered⟩
    · rw [if_neg (fun h => hremembered (hhunt.mp h))]
      cases hclear : s.clear now with
      | none => exact Or.inr (Or.inl ⟨rfl, hself, hremembered⟩)
      | some s' => exact Or.inr (Or.inr ⟨s', rfl, rfl, hself, hremembered⟩)

omit [DecidableEq ι] in
theorem Targets.record_used (h : s.usedTargets ≤ 9) : (s.record target).usedTargets = s.usedTargets + 1 := by
  show (s.usedTargets + 1) % 256 = s.usedTargets + 1
  omega

theorem admitsOther_iff : admitsOther source s c = true ↔
    (addTarget source s c.target c.now).2 = true ∧ ¬ s.Remembered c.target ∧ source ≠ c.target := by
  unfold admitsOther admitsNew
  rw [Bool.and_eq_true, Bool.and_eq_true, Bool.not_eq_true', Bool.not_eq_true', decide_eq_false_iff_not,
    decide_eq_false_iff_not, and_assoc]

theorem not_admitsOther (h : source = c.target ∨ s.Remembered c.target) : ¬ admitsOther source s c = true := by
  rw [admitsOther_iff]
  rintro ⟨-, hunknown, hother⟩
  exact h.elim hother hunknown

theorem not_admitsOther_of_refused (h : addTarget source s c.target c.now = (s, false)) :
    ¬ admitsOther source s c = true := by
  rw [admitsOther_iff, h]
  exact fun h => Bool.false_ne_true h.1

/-- A call keeps what holds of the counts, and takes a minute where it counts. -/
theorem addTarget_ok (hok : s.Ok c.now) :
    (addTarget source s c.target c.now).1.Ok c.now ∧
      (addTarget source s c.target c.now).1.credit c.now + (if admitsOther source s c then 60 else 0) ≤
        s.credit c.now := by
  obtain ⟨hsame, hold⟩ | ⟨hsame, -, -⟩ | ⟨s', hclear, hnew, hother, hunknown⟩ :=
    addTarget_cases source s c.target c.now
  · rw [if_neg (not_admitsOther hold), hsame]
    exact ⟨hok, (Int.add_zero _).le⟩
  · rw [if_neg (not_admitsOther_of_refused hsame), hsame]
    exact ⟨hok, (Int.add_zero _).le⟩
  · have hadmits : admitsOther source s c = true := admitsOther_iff.mpr ⟨by rw [hnew], hunknown, hother⟩
    obtain ⟨-, hfree, htg, hlast, hused, -, hidle, hcredit⟩ := Targets.clear_ok hok hclear
    have hused' : (s'.record c.target).usedTargets = s'.usedTargets + 1 := Targets.record_used hused
    rw [if_pos hadmits, hnew]
    refine ⟨⟨?_, show (s'.record c.target).usedTargets ≤ 10 by omega, fun h => absurd (h.symm.trans htg) Bool.false_ne_true, fun _ => hlast⟩, ?_⟩
    · show nextTarget s'.freeTarget ≤ 9
      rw [hfree]
      exact nextTarget_le hok.free
    · rw [Targets.credit_of_tgChange (show (s'.record c.target).tgChange = true from htg), hused']
      show _ + min (s'.idle c.now) _ + 60 ≤ _
      omega

omit [DecidableEq ι] in
theorem Targets.credit_bounds (hok : s.Ok now) : 0 ≤ s.credit now ∧ s.credit now ≤ 600 := by
  have hused := hok.used
  have hidle : 0 ≤ s.idle now := Targets.idle_nonneg
  unfold Targets.credit
  split <;> omega

omit [DecidableEq ι] in
theorem Targets.credit_grow (h : now ≤ now') : s.credit now' ≤ s.credit now + (now' - now) := by
  have hidle : s.idle now' ≤ s.idle now + (now' - now) := by
    unfold Targets.idle
    omega
  unfold Targets.credit
  split <;> omega

omit [DecidableEq ι] in
theorem Targets.start_ok {used : Nat} (h : used = 0 ∨ used = 6) : (Targets.start used : Targets ι).Ok now :=
  ⟨show 0 ≤ 9 by decide, show used ≤ 10 by omega, fun _ => show used ≤ 6 by omega, fun h => by cases h⟩

/-- The limit as a rate limit. -/
def targetMeter (source : ι) : Meter (Targets ι) (TargetCall ι) where
  time := TargetCall.now
  step := targetStep source admitsOther
  Good _ := True
  Ok := Targets.Ok
  credit := Targets.credit
  cost := 60
  bound := 600
  ok_mono hok h := ⟨hok.free, hok.used, hok.fresh, fun htg => (hok.last htg).trans h⟩
  ok_step _ hok := (addTarget_ok hok).1
  credit_nonneg hok := (Targets.credit_bounds hok).1
  credit_le hok := (Targets.credit_bounds hok).2
  credit_grow _ := Targets.credit_grow
  credit_step _ hok := (addTarget_ok hok).2

-- ============================================================================
-- What is remembered
-- ============================================================================

/-- The ten slots hold the last ten records. -/
def Targets.Holds (s : Targets ι) (hist : List ι) : Prop :=
  slotsFrom s.targets 10 (prevTarget s.freeTarget) = (hist.map some ++ List.replicate 10 none).take 10

omit [DecidableEq ι] in
theorem Targets.start_holds {used : Nat} : (Targets.start used : Targets ι).Holds [] := rfl

omit [DecidableEq ι] in
theorem Targets.record_holds {hist : List ι} (hfree : s.freeTarget ≤ 9) (h : s.Holds hist) :
    (s.record target).Holds (target :: hist) := by
  unfold Targets.Holds at h ⊢
  show slotsFrom (Function.update s.targets s.freeTarget (some target)) 10 (prevTarget (nextTarget s.freeTarget)) = _
  rw [slotsFrom_record hfree, h, List.take_take]
  rfl

omit [DecidableEq ι] in
theorem Targets.slots_of_holds {hist : List ι} (hused : s.usedTargets ≤ 10) (h : s.Holds hist) :
    s.slots = (hist.map some ++ List.replicate 10 none).take s.usedTargets := by
  unfold Targets.slots
  rw [slotsFrom_take hused, h, List.take_take, Nat.min_eq_left hused]

theorem addTarget_holds {hist : List ι} (hok : s.Ok c.now) (h : s.Holds hist) :
    (addTarget source s c.target c.now).1.Holds ((if admitsOther source s c then [c.target] else []) ++ hist) := by
  obtain ⟨hsame, hold⟩ | ⟨hsame, -, -⟩ | ⟨s', hclear, hnew, hother, hunknown⟩ :=
    addTarget_cases source s c.target c.now
  · rw [if_neg (not_admitsOther hold), hsame]
    exact h
  · rw [if_neg (not_admitsOther_of_refused hsame), hsame]
    exact h
  · have hadmits : admitsOther source s c = true := admitsOther_iff.mpr ⟨by rw [hnew], hunknown, hother⟩
    obtain ⟨htargets, hfree, -⟩ := Targets.clear_ok hok hclear
    rw [if_pos hadmits, hnew]
    refine Targets.record_holds (hfree ▸ hok.free) ?_
    unfold Targets.Holds
    rw [htargets, hfree]
    exact h

/-- After a run the counts are in range and the slots hold what was recorded. -/
theorem run_holds (source : ι) (counts : ι → Targets ι → TargetCall ι → Bool) {t : Int} {hist : List ι} {l : List (TargetCall ι)}
    (hok : s.Ok t) (hholds : s.Holds hist) (htimed : TimedFrom TargetCall.now t l) :
    ∃ t', (stateAfter (targetStep source counts) s l).Ok t' ∧
      (stateAfter (targetStep source counts) s l).Holds (recorded source s l ++ hist) := by
  induction l generalizing s t hist with
  | nil => exact ⟨t, hok, hholds⟩
  | cons c l ih =>
    obtain ⟨hle, hrest⟩ := timedFrom_cons.mp htimed
    have hok' := (targetMeter source).ok_mono hok hle
    unfold recorded
    rw [List.append_assoc]
    exact ih (addTarget_ok hok').1 (addTarget_holds hok' hholds) hrest

/-- The limit holds for the calls of other clients. -/
theorem targetLimit_other : TargetLimit (ι := ι) admitsOther := by
  intro source used calls hused hsorted
  obtain ⟨t, htimed⟩ := exists_timedFrom hsorted
  have hok : (Targets.start used : Targets ι).Ok t := Targets.start_ok hused
  obtain ⟨t', hend, hholds⟩ := run_holds source admitsOther hok Targets.start_holds htimed
  rw [List.append_nil] at hholds
  refine ⟨hend.used, hend.free, Targets.slots_of_holds hend.used hholds, fun t₀ t₁ h => ?_⟩
  have hwindow : 60 * (passedIn TargetCall.now (targetStep source admitsOther) t₀ t₁ (Targets.start used) calls : Int) ≤
      600 + (t₁ - t₀) :=
    Meter.window (m := targetMeter source) hok (fun _ _ => trivial) htimed h (show (0 : Int) ≤ 600 by decide)
  omega

/-- A client's messages to itself always pass and are never remembered. -/
theorem not_targetLimit_new : ¬ TargetLimit (ι := Bool) admitsNew := by
  intro h
  have hself := (h true 0 (List.replicate 11 ⟨true, 0⟩) (Or.inl rfl) (by decide)).2.2.2 0 0 (le_refl _)
  exact absurd hself (by decide)

end Bluebox.Message
