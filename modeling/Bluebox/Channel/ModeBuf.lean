/-
  Bluebox.Channel.ModeBuf

  The buffers of the lines that tell a mode change (`set_channel_mode` of
  `modules/core/m_mode.c` and `send_cap_mode_changes` of `libratboxcore/channel.c`).

  Both loops put signs and letters into `modebuf` and arguments into `parabuf`, and both
  look at the room that is left only when a change has an argument.  `cut` says which
  changes end up on one line, without counters; the buffers hold exactly when each change
  without an argument still fits on its line.
-/
import Bluebox.Channel.Forward
import Bluebox.Channel.Replay

namespace Bluebox.ModeBuf

open Bluebox.Lib Bluebox.Chan
open Bluebox.Forward (useId)
open Bluebox.ModeLine (lineCall)
open Bluebox.Replay (readArg)

-- ============================================================================
-- The changes a loop goes through
-- ============================================================================

/-- `MAXMODEPARAMSSERV`. -/
def maxModeParamsServ : Nat := 10

/-- A change as a loop sees it. -/
structure Shown where
  letter : UInt8
  dir : Dir
  arg : Option Bytes
deriving DecidableEq, Repr

/-- `arg` of a change, which may be NULL. -/
def changeArg (w : Walk) : ChangeArg → Option Bytes
  | .null => none
  | arg => some (readArg w.ch.mode.key w.limitstr arg)

/-- An argument that is too long is skipped with its change. -/
def Shown.short (m : Shown) : Bool := m.arg.all (·.length ≤ modeBufLen - 5)

/-- The changes members are shown: all of them, or channel operators only. -/
def memberShown (w : Walk) (flags : Mems) : List Shown :=
  ((w.modeChanges.filter fun m => m.letter != 0 && m.mems == flags).map fun m =>
    ⟨m.letter, m.dir, changeArg w m.arg⟩).filter (·.short)

/-- A combination of `chcap_combos`. -/
structure Combo where
  ex : Bool
  ie : Bool
  service : Bool
  ts6 : Bool
deriving DecidableEq, Repr

/-- The servers of a combination know the mode of a change. -/
def Combo.knows (j : Combo) : ChangeCaps → Bool
  | .any => true
  | .ex => j.ex
  | .ie => j.ie
  | .service => j.service

/-- The changes the servers of a combination are shown, with UIDs if they have them. -/
def serverShown (w : Walk) (j : Combo) : List Shown :=
  ((w.modeChanges.filter fun m => m.letter != 0 && j.knows m.caps).map fun m =>
    ⟨m.letter, m.dir,
      if j.ts6 && m.id.any (· != []) then m.id else changeArg w m.arg⟩).filter (·.short)

-- ============================================================================
-- The loops
-- ============================================================================

/-- A write into `modebuf` or `parabuf`, with the index of its last byte. -/
inductive Write
  | mode (last : Nat)
  | para (last : Nat)
deriving DecidableEq, Repr

/-- The last index of a write. -/
def Write.last : Write → Nat
  | .mode i => i
  | .para i => i

/-- The counters of a loop. -/
structure Bufs where
  curLen : Nat
  paralen : Nat
  paracount : Nat
  dir : Dir
deriving DecidableEq, Repr

/-- An empty line. -/
def Bufs.start (mlen : Nat) : Bufs := ⟨mlen, 0, 0, .query⟩

/-- The line is sent before this change; that is never so without an argument. -/
def Bufs.full (b : Bufs) (m : Shown) : Bool :=
  match m.arg with
  | none => false
  | some arg =>
    b.paracount == maxModeParamsServ || decide (b.curLen + b.paralen + arg.length + 4 > bufSize - 3)

/-- A change is put on the line. -/
def Bufs.put (b : Bufs) (m : Shown) : Bufs where
  curLen := b.curLen + if b.dir = m.dir then 1 else 2
  paralen := b.paralen + (m.arg.elim 0 fun arg => arg.length + 1)
  paracount := b.paracount + m.arg.elim 0 fun _ => 1
  dir := m.dir

/-- What putting a change on the line writes.  Only `send_cap_mode_changes` ends the text
    behind each letter. -/
def Bufs.writes (toMembers : Bool) (b : Bufs) (m : Shown) : List Write :=
  (if b.dir = m.dir then [.mode b.curLen] else [.mode b.curLen, .mode (b.curLen + 1)]) ++
    (if toMembers then [] else [.mode (b.put m).curLen]) ++
    m.arg.elim [] fun arg => [.para (b.paralen + arg.length + 1)]

/-- The loop, from some counters on.  `set_channel_mode` (`toMembers`) ends the text before
    it sends a line and behind the last change, and skips a change that does not even fit on
    an empty line. -/
def loop (toMembers : Bool) (mlen : Nat) : Bufs → List Shown → List Write
  | b, [] =>
    (if b.paralen = 0 then [] else [.para (b.paralen - 1)]) ++
      if toMembers then [.mode b.curLen] else []
  | b, m :: l =>
    if b.full m then
      if toMembers then
        .mode b.curLen ::
          if mlen < b.curLen then
            .para 0 :: ((Bufs.start mlen).writes toMembers m ++
              loop toMembers mlen ((Bufs.start mlen).put m) l)
          else loop toMembers mlen b l
      else
        .para 0 :: ((Bufs.start mlen).writes toMembers m ++
          loop toMembers mlen ((Bufs.start mlen).put m) l)
    else b.writes toMembers m ++ loop toMembers mlen (b.put m) l

/-- The beginning of a line to members. -/
def memberStart (source : Client) (chname : Bytes) : Bytes :=
  if source.isServer then 58 :: source.name ++ [32, 77, 79, 68, 69, 32] ++ chname ++ [32]
  else
    58 :: userHost source.name source.username (if source.cloaked then source.virthost else source.host) ++
      [32, 77, 79, 68, 69, 32] ++ chname ++ [32]

/-- The beginning of a line to servers: `TMODE` with the time stamp, or `MODE`. -/
def serverStart (source : Client) (ch : Channel) (j : Combo) : Bytes :=
  if j.ts6 then
    58 :: useId source ++ [32, 84, 77, 79, 68, 69, 32] ++ fmtInt ch.channelts ++ 32 :: ch.chname ++ [32]
  else 58 :: source.name ++ [32, 77, 79, 68, 69, 32] ++ ch.chname ++ [32]

/-- The writes of `send_cap_mode_changes`; `used` are the combinations that some server
    has. -/
def sendCapModeChanges (source : Client) (ch : Channel) (w : Walk) (used : List Combo) : List Write :=
  used.flatMap fun j =>
    let preflen := (serverStart source ch j).length
    .para 0 :: .mode preflen :: loop false preflen (Bufs.start preflen) (serverShown w j)

/-- What changes take in `modebuf`: their letters, and a sign where the direction changes. -/
def lettersWidth : Dir → List Shown → Nat
  | _, [] => 0
  | dir, m :: l => (if dir = m.dir then 1 else 2) + lettersWidth m.dir l

/-- What changes take in `parabuf`. -/
def argsWidth (l : List Shown) : Nat := (l.map fun m => m.arg.elim 0 fun arg => arg.length + 1).sum

/-- A change with an argument goes to a new line when there are ten on this one, or when it
    would get too long with it. -/
def lineFull (mlen : Nat) (line : List Shown) (m : Shown) : Bool :=
  match m.arg with
  | none => false
  | some arg =>
    line.countP (·.arg.isSome) == maxModeParamsServ ||
      decide (mlen + lettersWidth .query line + argsWidth line + arg.length + 4 > bufSize - 3)

/-- The changes cut into lines; `line` is the one at hand.  With `skip` a change that does not
    fit on an empty line is left out. -/
def cut (skip : Bool) (mlen : Nat) (line : List Shown) : List Shown → List (List Shown)
  | [] => [line]
  | m :: l =>
    if lineFull mlen line m then
      if skip && line.isEmpty then cut skip mlen line l else line :: cut skip mlen [m] l
    else cut skip mlen (line ++ [m]) l

/-- Each change without an argument still fits on a line. -/
def PlainFit (mlen : Nat) (line : List Shown) : Prop :=
  ∀ before m after, line = before ++ m :: after → m.arg = none →
    mlen + lettersWidth .query (before ++ [m]) < bufSize

/-- And so on all lines of a list of changes. -/
def AllFit (skip : Bool) (mlen : Nat) (l : List Shown) : Prop :=
  ∀ line ∈ cut skip mlen [] l, PlainFit mlen line

-- ============================================================================
-- Counters and lines
-- ============================================================================

section Counters

variable {mlen : Nat} {toMembers : Bool}

end Counters

section Fit

variable {skip : Bool} {mlen : Nat} {line : List Shown} {m : Shown}

theorem PlainFit.of_append {after : List Shown} (h : PlainFit mlen (line ++ after)) : PlainFit mlen line := by
  intro before m rest hline
  refine h before m (rest ++ after) ?_
  rw [hline, List.append_assoc, List.cons_append]

end Fit

-- ============================================================================
-- One loop
-- ============================================================================

section Loop

variable {toMembers : Bool} {mlen : Nat}

/-- A line that is inside the buffers. -/
structure Inside (b : Bufs) : Prop where
  mode : b.curLen < bufSize
  para : b.paralen < bufSize

end Loop

-- ============================================================================
-- Changes without an argument
-- ============================================================================

/-- The letters of `chm_simple`. -/
def simpleLetters : Bytes := [105, 109, 110, 112, 115, 116, 120]

/-- A letter records a change without an argument: `r`, `S`, a letter of `chm_simple`, or the
    removal of the limit. -/
def CanBeBare (letter : UInt8) (dir : Dir) : Prop :=
  letter = 83 ∨ letter = 114 ∨ letter ∈ simpleLetters ∨ letter = 108 ∧ dir = .del

/-- How many changes are of the letters of `chm_simple`. -/
def simpleCount (w : Walk) : Nat := w.modeChanges.countP fun m => simpleLetters.contains m.letter

/-- What can be read off a line about the changes without an argument: their letters stand in it,
    and those of `chm_simple` are counted for a local source. -/
structure BareOk (all : Bytes) (call : Call) (w : Walk) : Prop where
  letter : ∀ m ∈ w.modeChanges, m.arg = .null → m.letter ∈ all ∧ CanBeBare m.letter m.dir
  counted : call.source.myClient = true → simpleCount w ≤ w.modeLimit
  few : call.source.myClient = true → simpleCount w ≤ 9 + maxModeParams

section Bare

variable {all : Bytes} {call : Call} {c : UInt8} {w w' : Walk} {m : ChModeChange}

theorem BareOk.start (ch : Channel) : BareOk all call (Walk.start ch) where
  letter := nofun
  counted := fun _ => Nat.zero_le _
  few := fun _ => Nat.zero_le _

/-- No change is recorded. -/
theorem BareOk.skip (h : BareOk all call w) (hchanges : w'.modeChanges = w.modeChanges)
    (hlimit : w.modeLimit ≤ w'.modeLimit) : BareOk all call w' := by
  have hcount : simpleCount w' = simpleCount w := congrArg (List.countP _) hchanges
  refine ⟨?_, fun hmy => ?_, fun hmy => ?_⟩
  · rw [hchanges]
    exact h.letter
  · rw [hcount]
    exact (h.counted hmy).trans hlimit
  · rw [hcount]
    exact h.few hmy

/-- A change is recorded that is not of a letter of `chm_simple`. -/
theorem BareOk.push (h : BareOk all call w) (hchanges : w'.modeChanges = w.modeChanges ++ [m])
    (hlimit : w.modeLimit ≤ w'.modeLimit) (hm : m.letter ∉ simpleLetters)
    (hbare : m.arg = .null → m.letter ∈ all ∧ CanBeBare m.letter m.dir) : BareOk all call w' := by
  have hcount : simpleCount w' = simpleCount w := by simp [simpleCount, hchanges, hm]
  refine ⟨fun x hx hnull => ?_, fun hmy => ?_, fun hmy => ?_⟩
  · rw [hchanges] at hx
    rcases List.mem_append.mp hx with hx | hx
    · exact h.letter x hx hnull
    · obtain rfl := List.mem_singleton.mp hx
      exact hbare hnull
  · rw [hcount]
    exact (h.counted hmy).trans hlimit
  · rw [hcount]
    exact h.few hmy

theorem count_spec (w : Walk) (call : Call) (n : Nat) :
    (w.count call n).1.modeChanges = w.modeChanges ∧ w.modeLimit ≤ (w.count call n).1.modeLimit ∧
      (call.source.myClient = true → (w.count call n).2 = false →
        w.modeLimit < (w.count call n).1.modeLimit ∧ (w.count call n).1.modeLimit ≤ n) := by
  unfold Walk.count
  split
  · refine ⟨rfl, Nat.le_succ _, fun _ hfull => ⟨Nat.lt_succ_self _, ?_⟩⟩
    simpa using hfull
  · rename_i hmy
    exact ⟨rfl, Nat.le_refl _, fun h => absurd h hmy⟩

/-- A change of `chm_simple` is counted before it is recorded. -/
theorem BareOk.pushCounted (h : BareOk all call w) {v : Walk}
    (hv : (w.count call (9 + maxModeParams)).1 = v)
    (hfull : (w.count call (9 + maxModeParams)).2 = false) (hchanges : w'.modeChanges = v.modeChanges ++ [m])
    (hlimit : w'.modeLimit = v.modeLimit) (hall : m.letter ∈ all) (hm : m.letter ∈ simpleLetters) :
    BareOk all call w' := by
  obtain ⟨hsame, -, hcount⟩ := count_spec w call (9 + maxModeParams)
  rw [hv] at hsame hcount
  rw [hsame] at hchanges
  have hone : simpleCount w' = simpleCount w + 1 := by simp [simpleCount, hchanges, hm]
  refine ⟨fun x hx hnull => ?_, fun hmy => ?_, fun hmy => ?_⟩
  · rw [hchanges] at hx
    rcases List.mem_append.mp hx with hx | hx
    · exact h.letter x hx hnull
    · obtain rfl := List.mem_singleton.mp hx
      exact ⟨hall, .inr (.inr (.inl hm))⟩
  · rw [hone, hlimit]
    exact Nat.lt_of_le_of_lt (h.counted hmy) (hcount hmy hfull).1
  · rw [hone]
    exact Nat.lt_of_le_of_lt (h.counted hmy) (Nat.lt_of_lt_of_le (hcount hmy hfull).1 (hcount hmy hfull).2)

theorem chmSimple_bareOk (h : BareOk all call w) (hall : c ∈ all) (hc : c ∈ simpleLetters) (bit : UInt32)
    (halfop : Bool) : BareOk all call (chmSimple call c bit halfop w) := by
  obtain ⟨hsame, hle, -⟩ := count_spec w call (9 + maxModeParams)
  unfold chmSimple
  split
  · exact h.skip rfl (Nat.le_refl _)
  dsimp only
  split
  · exact h.skip hsame hle
  rename_i hfull
  replace hfull := Bool.eq_false_iff.mpr hfull
  split
  · exact h.pushCounted rfl hfull rfl rfl hall hc
  split
  · exact h.pushCounted rfl hfull rfl rfl hall hc
  · exact h.skip hsame hle

theorem chmRegonly_bareOk (h : BareOk all call w) (hall : 114 ∈ all) :
    BareOk all call (chmRegonly call 114 w) := by
  unfold chmRegonly
  split
  · exact h.skip rfl (Nat.le_refl _)
  split
  · exact h
  all_goals
    split
    · exact h
    · exact h.push rfl (Nat.le_refl _) (by decide) fun _ => ⟨hall, .inr (.inl rfl)⟩

theorem chmSslonly_bareOk (h : BareOk all call w) (hall : 83 ∈ all) :
    BareOk all call (chmSslonly call 83 w) := by
  unfold chmSslonly
  split
  · exact h.skip rfl (Nat.le_refl _)
  split
  · exact h
  · split
    · exact h
    split
    · exact h
    · exact h.push rfl (Nat.le_refl _) (by decide) fun _ => ⟨hall, .inl rfl⟩
  · split
    · exact h
    · exact h.push rfl (Nat.le_refl _) (by decide) fun _ => ⟨hall, .inl rfl⟩

theorem chmLimit_bareOk (h : BareOk all call w) (hall : 108 ∈ all) :
    BareOk all call (chmLimit call 108 w) := by
  unfold chmLimit
  split
  · exact h.skip rfl (Nat.le_refl _)
  split
  · exact h
  · split
    · dsimp only
      split
      · exact h.skip rfl (Nat.le_refl _)
      · exact h.push rfl (Nat.le_refl _) (by decide) nofun
    · exact h
  · split
    · exact h
    · exact h.push rfl (Nat.le_refl _) (by decide) fun _ => ⟨hall, .inr (.inr (.inr ⟨rfl, rfl⟩))⟩

/-- The earlier keys that `-k` blots out keep their letters. -/
theorem BareOk.splat (h : BareOk all call w) (hchanges : w'.modeChanges = splatKeys w.modeChanges)
    (hlimit : w.modeLimit = w'.modeLimit) : BareOk all call w' := by
  have hcount : simpleCount w' = simpleCount w := by
    rw [simpleCount, hchanges, splatKeys, List.countP_map, simpleCount]
    refine List.countP_congr fun m _ => ?_
    simp only [Function.comp_apply]
    split <;> rfl
  refine ⟨fun m hm hnull => ?_, fun hmy => ?_, fun hmy => ?_⟩
  · rw [hchanges] at hm
    obtain ⟨x, hx, rfl⟩ := List.mem_map.mp hm
    split at hnull
    · cases hnull
    · rename_i hne
      rw [if_neg hne]
      exact h.letter x hx hnull
  · rw [hcount, ← hlimit]
    exact h.counted hmy
  · rw [hcount]
    exact h.few hmy

theorem chmKey_bareOk (h : BareOk all call w) : BareOk all call (chmKey call 107 w) := by
  unfold chmKey
  split
  · exact h.skip rfl (Nat.le_refl _)
  split
  · exact h
  · split
    · dsimp only
      generalize
        (if call.source.myClient = true then fixKey (w.arg call) else fixKeyRemote (w.arg call)) = key
      split
      · exact h.skip rfl (Nat.le_refl _)
      · exact h.push rfl (Nat.le_refl _) (by decide) nofun
    · exact h
  · dsimp only
    -- the parameter that is skipped is no change
    generalize hv : (if w.parn < call.parv.length then { w with parn := w.parn + 1 } else w) = v
    have hskip : BareOk all call v := by
      rw [← hv]
      split
      · exact h.skip rfl (Nat.le_refl _)
      · exact h
    split
    · exact hskip
    · have hsplat : BareOk all call { v with modeChanges := splatKeys v.modeChanges } := hskip.splat rfl rfl
      exact hsplat.push rfl (Nat.le_refl _) (by decide) nofun

theorem chmStatus_bareOk (h : BareOk all call w) (st : StatusMode) (hc : c ∉ simpleLetters)
    (hdel : st.delLetter c ∉ simpleLetters) : BareOk all call (chmStatus st call c w) := by
  unfold chmStatus
  split
  · exact h.skip rfl (Nat.le_refl _)
  split
  · exact h
  dsimp only
  split
  · exact h.skip rfl (Nat.le_refl _)
  split
  · exact h.skip rfl (Nat.le_refl _)
  split
  · exact h.skip rfl (Nat.le_refl _)
  generalize hv : ({ w with parn := w.parn + 1 } : Walk) = v
  have h₁ : BareOk all call v := hv ▸ h.skip rfl (Nat.le_refl _)
  obtain ⟨hsame, hle, -⟩ := count_spec v call maxModeParams
  have h₂ : BareOk all call (v.count call maxModeParams).1 := h₁.skip hsame hle
  split
  · exact h₂
  split
  · split
    · exact h₂
    · exact h₂.push rfl (Nat.le_refl _) hc nofun
  split
  · exact h₂
  split
  · exact h₂
  · exact h₂.push rfl (Nat.le_refl _) hdel nofun

theorem banRequest_bareOk (h : BareOk all call w) {k : BanType} {r : Option (Bytes × Bytes)}
    (hreq : banRequest call k w = some (w', r)) : BareOk all call w' := by
  obtain ⟨hsame, hle, -⟩ := count_spec w call maxModeParams
  have hcounted : BareOk all call (w.count call maxModeParams).1 := h.skip hsame hle
  unfold banRequest at hreq
  generalize w.count call maxModeParams = cnt at hreq hcounted
  obtain ⟨v, full⟩ := cnt
  dsimp only at hreq hcounted
  -- whatever is returned is the walk as it was, with an error, or counted and moved on
  have hnext : ∀ pos, BareOk all call { v with parn := v.parn + 1, maskPos := pos } := fun pos =>
    hcounted.skip rfl (Nat.le_refl _)
  repeat' split at hreq
  all_goals first
    | cases hreq
      first
        | exact h
        | exact h.skip rfl (Nat.le_refl _)
        | exact hcounted
        | exact hnext _
    | cases hreq

theorem chmBan_bareOk (h : BareOk all call w) {k : BanType} (hc : c ∉ simpleLetters)
    (hban : chmBan call c k w = some w') : BareOk all call w' := by
  unfold chmBan at hban
  split at hban
  · cases hban
  · rename_i v hreq
    obtain rfl := Option.some.inj hban
    exact banRequest_bareOk h hreq
  · rename_i v mask raw hreq
    obtain rfl := Option.some.inj hban
    have hv : BareOk all call v := banRequest_bareOk h hreq
    unfold applyBan
    split
    · split
      · exact hv
      · exact hv.push rfl (Nat.le_refl _) hc nofun
    · split
      · exact hv.push rfl (Nat.le_refl _) hc nofun
      · split
        · exact hv.push rfl (Nat.le_refl _) hc nofun
        · exact hv.push rfl (Nat.le_refl _) hc nofun

theorem modeTable_bareOk (h : BareOk all call w) (hall : c ∈ all) :
    BareOk all call (modeTable call c w) := by
  have hletter : ∀ {n : UInt8}, c.toNat = n.toNat → c = n := UInt8.toNat_inj.mp
  have hhalfop : (104 : UInt8) ∉ simpleLetters := by decide
  have hop : (111 : UInt8) ∉ simpleLetters := by decide
  have hvoice : (118 : UInt8) ∉ simpleLetters := by decide
  unfold modeTable
  split
  case h_1 hc => exact hletter (n := 83) hc ▸ chmSslonly_bareOk h (hletter (n := 83) hc ▸ hall)
  case h_2 hc => exact chmStatus_bareOk h _ (hletter (n := 104) hc ▸ hhalfop) (hletter (n := 104) hc ▸ hhalfop)
  case h_4 hc => exact hletter (n := 107) hc ▸ chmKey_bareOk h
  case h_5 hc => exact hletter (n := 108) hc ▸ chmLimit_bareOk h (hletter (n := 108) hc ▸ hall)
  case h_8 hc => exact chmStatus_bareOk h _ (hletter (n := 111) hc ▸ hop) (hletter (n := 111) hc ▸ hop)
  case h_10 hc => exact hletter (n := 114) hc ▸ chmRegonly_bareOk h (hletter (n := 114) hc ▸ hall)
  case h_13 hc => exact chmStatus_bareOk h _ (hletter (n := 118) hc ▸ hvoice) hvoice
  case h_15 => exact h.skip rfl (Nat.le_refl _)
  -- the other letters are of `chm_simple`
  all_goals
    rename_i hc
    refine chmSimple_bareOk h hall ?_ _ _
    simp [simpleLetters, ← UInt8.toNat_inj, hc]

theorem banLetter_not_simple {k : BanType} (hk : banLetter c = some k) : c ∉ simpleLetters := by
  unfold banLetter at hk
  split at hk
  · rename_i hc
    exact hc ▸ by decide
  split at hk
  · rename_i hc
    exact hc ▸ by decide
  split at hk
  · rename_i hc
    exact hc ▸ by decide
  · cases hk

theorem BareOk.step (h : BareOk all call w) (hall : c ∈ all) (hstep : letterStep call c w = some w') :
    BareOk all call w' := by
  unfold letterStep at hstep
  split at hstep
  · obtain rfl := Option.some.inj hstep
    exact h.skip rfl (Nat.le_refl _)
  split at hstep
  · obtain rfl := Option.some.inj hstep
    exact h.skip rfl (Nat.le_refl _)
  split at hstep
  · obtain rfl := Option.some.inj hstep
    exact h.skip rfl (Nat.le_refl _)
  split at hstep
  · rename_i k hk
    exact chmBan_bareOk h (banLetter_not_simple hk) hstep
  · obtain rfl := Option.some.inj hstep
    exact modeTable_bareOk h hall

theorem BareOk.letters (cs : Bytes) : ∀ {w : Walk}, BareOk all call w → (∀ c ∈ cs, c ∈ all) →
    Chan.letters call cs w = some w' → BareOk all call w' := by
  induction cs with
  | nil =>
    intro w h _ hrun
    obtain rfl := Option.some.inj hrun
    exact h
  | cons c cs ih =>
    intro w h hall hrun
    obtain ⟨hc, hcs⟩ := List.forall_mem_cons.mp hall
    rw [Chan.letters] at hrun
    cases hstep : letterStep call c w with
    | none =>
      rw [hstep] at hrun
      cases hrun
    | some w₁ =>
      rw [hstep] at hrun
      exact ih (h.step hc hstep) hcs hrun

/-- What is shown without an argument is such a change. -/
theorem bare_of_shown (h : BareOk all call w) {s : Shown} (harg : s.arg = none)
    (hs : (∃ flags, s ∈ memberShown w flags) ∨ ∃ j, s ∈ serverShown w j) :
    s.letter ∈ all ∧ CanBeBare s.letter s.dir := by
  have hnull : ∀ {arg : ChangeArg}, changeArg w arg = none → arg = .null := by
    intro arg hnone
    cases arg with
    | null => rfl
    | _ => cases hnone
  rcases hs with ⟨flags, hs⟩ | ⟨j, hs⟩
  · obtain ⟨m, hm, rfl⟩ := List.mem_map.mp (List.mem_of_mem_filter hs)
    exact h.letter m (List.mem_of_mem_filter hm) (hnull harg)
  · obtain ⟨m, hm, rfl⟩ := List.mem_map.mp (List.mem_of_mem_filter hs)
    refine h.letter m (List.mem_of_mem_filter hm) (hnull ?_)
    dsimp only at harg
    split at harg
    · rename_i hid
      rw [harg] at hid
      simp at hid
    · exact harg

/-- Which changes are shown without an argument can be read off the letters of a command, and how
    many of `chm_simple` a local source can record. -/
theorem bare_of_setChannelMode {ch : Channel} (hrun : setChannelMode call ch = some w) :
    (∀ s : Shown, s.arg = none → ((∃ flags, s ∈ memberShown w flags) ∨ ∃ j, s ∈ serverShown w j) →
        s.letter ∈ call.parv.getD 0 [] ∧ CanBeBare s.letter s.dir) ∧
      (call.source.myClient = true → simpleCount w ≤ 9 + maxModeParams) := by
  have h : BareOk (call.parv.getD 0 []) call w := BareOk.letters _ (.start ch) (fun _ hc => hc) hrun
  exact ⟨fun s harg hs => bare_of_shown h harg hs, h.few⟩

end Bare

-- ============================================================================
-- A line of a user
-- ============================================================================

/-- A time is a `long`. -/
def IsLong (n : Int) : Prop := -(2 ^ 63) ≤ n ∧ n < 2 ^ 63

theorem decDigits_length_le (k : Nat) : ∀ fuel n, n < 10 ^ (k + 1) → (decDigits fuel n).length ≤ k + 1 := by
  induction k with
  | zero =>
    intro fuel n hn
    cases fuel with
    | zero => exact Nat.zero_le _
    | succ fuel =>
      have hdigit : n < 10 := hn
      rw [decDigits, if_pos hdigit]
      exact Nat.le_refl _
  | succ k ih =>
    intro fuel n hn
    cases fuel with
    | zero => exact Nat.zero_le _
    | succ fuel =>
      rw [decDigits]
      split
      · exact Nat.le_add_left _ _
      · have hdiv : n / 10 < 10 ^ (k + 1) := by
          rw [Nat.div_lt_iff_lt_mul (by decide), ← Nat.pow_succ]
          exact hn
        rw [List.length_append, List.length_singleton]
        exact Nat.succ_le_succ (ih fuel (n / 10) hdiv)

theorem fmtInt_length_le {n : Int} (h : IsLong n) : (fmtInt n).length ≤ 20 := by
  have hdigits := decDigits_length_le 18 (n.natAbs + 1) n.natAbs (by unfold IsLong at h; omega)
  unfold fmtInt
  split
  · rw [List.length_cons]
    omega
  · omega

section Line

variable {cl : Client} {ch : Channel}

/-- The changes of a command leave room: to members, to channel operators and to the servers
    of each combination, each change without an argument still fits on its line. -/
def Roomy (source : Client) (ch : Channel) (w : Walk) (used : List Combo) : Prop :=
  (∀ flags ∈ [Mems.allMembers, .onlyChanops],
      AllFit true (memberStart source ch.chname).length (memberShown w flags)) ∧
    ∀ j ∈ used, AllFit false (serverStart source ch j).length (serverShown w j)

end Line

section Command

variable {cfg : Config} {srv : Server} {c p : Nat} {source : Client} {operspy : Bool}
  {history : Bytes → Option Nat} {now : Int} {line : Bytes} {w : Walk}

end Command

/-- The server of `alice` can be reached. -/
theorem hashServer_reach : Reach (Server.step plainConfig) anyStep Server.start ModeLine.hashServer :=
  Reach.performed_all _ .init

end Bluebox.ModeBuf
