/-
  Bluebox.Channel.ModeLine

  A whole `MODE` line of a local user, and the masks in it.

  `pretty_mask` writes the masks of one command behind each other into a buffer of
  `BUFSIZE` bytes, and gives up when the mask it got does not fit there with five more;
  `chm_ban` does not expect that.  A line pays for each mask with a letter, a blank and the
  mask itself, and a mask gets up to four bytes longer and an end, so a line of 510 bytes
  can be three bytes short at the fourth mask, and only there.
-/
import Bluebox.Bandb.Params
import Bluebox.Channel.Run

namespace Bluebox.ModeLine

open Bluebox.Lib Bluebox.Chan
open Bluebox.Bandb (rbStringToArray paramLoop Word)

-- ============================================================================
-- The line
-- ============================================================================

/-- The command of a line of a user and what follows it (`parse`): blanks and a sender in
    front are skipped. -/
def splitCommand (line : Bytes) : Option (Bytes × Bytes) :=
  let ch := line.dropWhile (· == 32)
  let ch :=
    if ch.head? = some 58 then
      (match strchr 32 ch.tail with
        | some (_, s) => s
        | none => ch.tail).dropWhile (· == 32)
    else ch
  strchr 32 ch

/-- The parameters of a `MODE` line; `string_to_array` is `rb_string_to_array` with
    `MAXPARA` parameters. -/
def modeParams (line : Bytes) : Option (List Bytes) :=
  match splitCommand line with
  | none => none
  | some (cmd, s) =>
    if cmd.map toUpper = [77, 79, 68, 69] then some (rbStringToArray s 15) else none

/-- The call of `set_channel_mode` that a line of a local user leads to, with the address of
    the channel.  A user with `operspy` may put a `!` in front of the channel. -/
def lineCall (cfg : Config) (srv : Server) (c : Nat) (source : Client) (operspy : Bool)
    (history : Bytes → Option Nat) (now : Int) (line : Bytes) : Option (Nat × Call) :=
  match modeParams line with
  | some (dest :: parv) =>
    let dest := if operspy = true ∧ dest.head? = some 33 then dest.tail else dest
    mMode cfg srv source dest ⟨c, parv, history, now⟩
  | _ => none

-- ============================================================================
-- The masks of a command
-- ============================================================================

/-- What `pretty_mask` writes. -/
def prettyText (idmask : Bytes) : Bytes :=
  let (nick, user, host) := maskParts (collapse (checkString idmask))
  userHost (nick.take (nickLen - 1)) (user.take userLen) (host.take hostLen)

/-- A letter that neither counts nor takes a parameter. -/
def takesNone (dir : Dir) (c : UInt8) : Bool :=
  match c.toNat with
  | 105 | 109 | 110 | 112 | 115 | 116 | 120 => false -- i m n p s t x
  | 104 | 107 | 111 | 118 => dir == .query           -- h k o v
  | 108 => dir != .add                               -- l
  | _ => true

/-- How many masks the letters take, up to the first letter that counts or takes another
    parameter. -/
def masksRead (cfg : Config) : Dir → Bytes → Nat
  | _, [] => 0
  | dir, c :: cs =>
    if c = 43 then masksRead cfg .add cs
    else if c = 45 then masksRead cfg .del cs
    else if c = 61 then masksRead cfg .query cs
    else
      match banLetter c with
      | some k =>
        if dir = .query ∨ (k.used cfg = false ∧ dir = .add) then masksRead cfg dir cs
        else masksRead cfg dir cs + 1
      | none => if takesNone dir c then masksRead cfg dir cs else 0

theorem masksRead_add {cfg : Config} {dir : Dir} {c : UInt8} (hc : c = 43) (cs : Bytes) :
    masksRead cfg dir (c :: cs) = masksRead cfg .add cs := by
  rw [masksRead, if_pos hc]

theorem masksRead_del {cfg : Config} {dir : Dir} {c : UInt8} (hadd : c ≠ 43) (hc : c = 45)
    (cs : Bytes) : masksRead cfg dir (c :: cs) = masksRead cfg .del cs := by
  rw [masksRead, if_neg hadd, if_pos hc]

theorem masksRead_query {cfg : Config} {dir : Dir} {c : UInt8} (hadd : c ≠ 43) (hdel : c ≠ 45)
    (hc : c = 61) (cs : Bytes) : masksRead cfg dir (c :: cs) = masksRead cfg .query cs := by
  rw [masksRead, if_neg hadd, if_neg hdel, if_pos hc]

theorem masksRead_ban {cfg : Config} {dir : Dir} {c : UInt8} {k : BanType} (hadd : c ≠ 43)
    (hdel : c ≠ 45) (hquery : c ≠ 61) (hk : banLetter c = some k) (cs : Bytes) :
    masksRead cfg dir (c :: cs) =
      if dir = .query ∨ (k.used cfg = false ∧ dir = .add) then masksRead cfg dir cs
      else masksRead cfg dir cs + 1 := by
  rw [masksRead, if_neg hadd, if_neg hdel, if_neg hquery, hk]

theorem masksRead_other {cfg : Config} {dir : Dir} {c : UInt8} (hadd : c ≠ 43) (hdel : c ≠ 45)
    (hquery : c ≠ 61) (hk : banLetter c = none) (cs : Bytes) :
    masksRead cfg dir (c :: cs) = if takesNone dir c then masksRead cfg dir cs else 0 := by
  rw [masksRead, if_neg hadd, if_neg hdel, if_neg hquery, hk]

/-- The command takes four masks before anything else, and the fourth does not fit behind
    what the first three become. -/
def Crowded (cfg : Config) (parv : List Bytes) : Prop :=
  ∃ letters m₁ m₂ m₃ m₄ rest, parv = letters :: m₁ :: m₂ :: m₃ :: m₄ :: rest ∧
    4 ≤ masksRead cfg .add letters ∧ m₄.head? ≠ some 58 ∧
    bufSize < ((prettyText m₁).length + 1) + ((prettyText m₂).length + 1) +
      ((prettyText m₃).length + 1) + (collapse (checkString m₄)).length + 5

-- ============================================================================
-- Lengths
-- ============================================================================

/-- What parameters take in a line, with the blank in front of each. -/
def cost (l : List Bytes) : Nat := (l.map fun t => t.length + 1).sum

theorem cost_cons (t : Bytes) (l : List Bytes) : cost (t :: l) = t.length + 1 + cost l := rfl

theorem cost_paramLoop (more : Nat) (xbuf : Bytes) : cost (paramLoop more xbuf) ≤ xbuf.length + 1 := by
  have hnil : cost [] = 0 := rfl
  fun_induction paramLoop more xbuf with
  | case1 _ xbuf hcolon =>
    rw [cost_cons, List.length_tail]
    omega
  | case2 _ xbuf hcolon hchr => exact Nat.le_of_eq rfl
  | case3 _ xbuf hcolon word p hchr hend =>
    have hlen := length_of_strchr hchr
    rw [cost_cons]
    omega
  | case4 xbuf hcolon word p hchr hmore =>
    have hlen := length_of_strchr hchr
    simp only [cost_cons]
    split
    · rw [List.length_tail]
      omega
    · omega
  | case5 xbuf hcolon word p hchr hmore more ih =>
    have hlen := length_of_strchr hchr
    have hdrop := (List.dropWhile_sublist (fun b : UInt8 => b == 32) (l := p)).length_le
    rw [cost_cons]
    omega

theorem cost_rbStringToArray (s : Bytes) : cost (rbStringToArray s 15) ≤ s.length + 1 := by
  unfold rbStringToArray
  have hdrop := (List.dropWhile_sublist (fun b : UInt8 => b == 32) (l := s)).length_le
  simp only
  split
  · exact Nat.zero_le _
  · have hloop := cost_paramLoop 13 (s.dropWhile fun b => b == 32)
    show cost (paramLoop 13 _) ≤ _
    omega

/-- A line pays for the command, and for each parameter and a blank. -/
theorem cost_modeParams {line : Bytes} {params : List Bytes} (h : modeParams line = some params) :
    4 + cost params ≤ line.length := by
  unfold modeParams at h
  split at h
  · cases h
  · rename_i cmd s hsplit
    split at h
    · rename_i hcmd
      obtain rfl := Option.some.inj h
      have hfour : cmd.length = 4 := by
        rw [← List.length_map toUpper, hcmd]
        rfl
      have hcost := cost_rbStringToArray s
      have hdrop := (List.dropWhile_sublist (fun b : UInt8 => b == 32) (l := line)).length_le
      unfold splitCommand at hsplit
      simp only at hsplit
      have hlen := length_of_strchr hsplit
      split at hlen
      · -- A sender only makes the line longer.
        have hdrop' := (List.dropWhile_sublist (fun b : UInt8 => b == 32)
          (l := match strchr 32 (line.dropWhile (· == 32)).tail with
            | some (_, s) => s
            | none => (line.dropWhile (· == 32)).tail)).length_le
        have htail : (line.dropWhile (· == 32)).tail.length ≤ (line.dropWhile (· == 32)).length := by
          rw [List.length_tail]
          omega
        split at hdrop'
        · rename_i word p hchr
          have := length_of_strchr hchr
          simp only [hchr] at hlen
          omega
        · rename_i hchr
          simp only [hchr] at hlen
          omega
      · omega
    · cases h

theorem checkString_length_le {s : Bytes} (h : s ≠ []) : (checkString s).length ≤ s.length := by
  unfold checkString
  rw [if_neg h]
  exact (List.takeWhile_sublist _).length_le

theorem orSplat_length_le (s : Bytes) : (orSplat s).length ≤ s.length + 1 := by
  unfold orSplat
  split
  · exact Nat.le_add_left 1 _
  · omega

/-- A mask becomes up to four bytes longer. -/
theorem maskParts_length_le (mask : Bytes) :
    (maskParts mask).1.length + (maskParts mask).2.1.length + (maskParts mask).2.2.length + 2 ≤
      max mask.length 1 + 4 := by
  unfold maskParts
  cases hat : strchr 64 mask with
  | some lr =>
    obtain ⟨left, host⟩ := lr
    have hlen := length_of_strchr hat
    have hhost := orSplat_length_le host
    cases hex : strchr 33 left with
    | some nu =>
      obtain ⟨nick, user⟩ := nu
      have hlen' := length_of_strchr hex
      have hnick := orSplat_length_le nick
      have huser := orSplat_length_le user
      simp only [hex]
      omega
    | none =>
      have huser := orSplat_length_le left
      simp only [hex, List.length_singleton]
      omega
  | none =>
    cases hex : strchr 33 mask with
    | some nu =>
      obtain ⟨nick, user⟩ := nu
      have hlen' := length_of_strchr hex
      have hnick := orSplat_length_le nick
      have huser := orSplat_length_le user
      simp only [List.length_singleton]
      omega
    | none =>
      have hwhole : (orSplat mask).length ≤ max mask.length 1 := by
        unfold orSplat
        split
        · exact Nat.le_max_right _ _
        · exact Nat.le_max_left _ _
      simp only
      split
      · simp only [List.length_singleton]
        omega
      · simp only [List.length_singleton]
        omega

theorem prettyText_length_le {idmask : Bytes} (h : idmask ≠ []) :
    (prettyText idmask).length ≤ idmask.length + 4 := by
  have hparts := maskParts_length_le (collapse (checkString idmask))
  have hmask := (collapse_sublist (checkString idmask)).1.length_le.trans (checkString_length_le h)
  have hpos : 0 < idmask.length := List.length_pos_of_ne_nil h
  unfold prettyText
  generalize maskParts (collapse (checkString idmask)) = parts at hparts
  obtain ⟨nick, user, host⟩ := parts
  simp only [userHost, List.length_append, List.length_cons, List.length_take] at hparts ⊢
  omega

/-- The parts of a mask are cut. -/
theorem prettyText_length_le_max (idmask : Bytes) : (prettyText idmask).length ≤ 104 := by
  unfold prettyText
  generalize maskParts (collapse (checkString idmask)) = parts
  obtain ⟨nick, user, host⟩ := parts
  simp only [userHost, List.length_append, List.length_cons, List.length_take, nickLen, userLen, hostLen]
  omega

theorem prettyMask_eq (pos : Nat) (idmask : Bytes) :
    prettyMask pos idmask =
      if bufSize - pos < (collapse (checkString idmask)).length + 5 then none
      else some (prettyText idmask, pos + (prettyText idmask).length + 1) := rfl

-- ============================================================================
-- One letter
-- ============================================================================

/-- What a letter other than those of the lists does to the walk, as far as masks are
    concerned: it leaves it alone, counts, takes a parameter, or finds none. -/
def OtherLetter (call : Call) (c : UInt8) (w w' : Walk) : Prop :=
  w'.maskPos = w.maskPos ∧ w'.dir = w.dir ∧
    ((w'.parn = w.parn ∧ w'.modeLimit = w.modeLimit) ∧
        (takesNone w.dir c = true ∨ call.parv.length ≤ w.parn) ∨
      takesNone w.dir c = false ∧ w'.parn = w.parn ∧ w'.modeLimit = w.modeLimit + 1 ∨
      takesNone w.dir c = false ∧ w.parn < call.parv.length ∧ w'.parn = w.parn + 1 ∧
        w.modeLimit ≤ w'.modeLimit)

section Letters

variable {call : Call} {w : Walk}

theorem chmSimple_other (hmy : call.source.myClient = true) (hop : call.alevel = .chanop) (c : UInt8)
    (modeType : UInt32) (halfop : Bool) (hc : takesNone w.dir c = false) :
    OtherLetter call c w (chmSimple call c modeType halfop w) := by
  unfold chmSimple
  rw [if_neg (by rw [hop]; simp)]
  simp only [Walk.count, hmy, if_true]
  split
  · exact ⟨rfl, rfl, Or.inr (Or.inl ⟨hc, rfl, rfl⟩)⟩
  · split
    · exact ⟨rfl, rfl, Or.inr (Or.inl ⟨hc, rfl, rfl⟩)⟩
    · split
      · exact ⟨rfl, rfl, Or.inr (Or.inl ⟨hc, rfl, rfl⟩)⟩
      · exact ⟨rfl, rfl, Or.inr (Or.inl ⟨hc, rfl, rfl⟩)⟩

theorem chmRegonly_other (c : UInt8) (hc : takesNone w.dir c = true) :
    OtherLetter call c w (chmRegonly call c w) := by
  unfold chmRegonly
  split
  · exact ⟨rfl, rfl, Or.inl ⟨⟨rfl, rfl⟩, Or.inl hc⟩⟩
  · split
    · exact ⟨rfl, rfl, Or.inl ⟨⟨rfl, rfl⟩, Or.inl hc⟩⟩
    · split <;> exact ⟨rfl, rfl, Or.inl ⟨⟨rfl, rfl⟩, Or.inl hc⟩⟩
    · split <;> exact ⟨rfl, rfl, Or.inl ⟨⟨rfl, rfl⟩, Or.inl hc⟩⟩

theorem chmSslonly_other (c : UInt8) (hc : takesNone w.dir c = true) :
    OtherLetter call c w (chmSslonly call c w) := by
  unfold chmSslonly
  split
  · exact ⟨rfl, rfl, Or.inl ⟨⟨rfl, rfl⟩, Or.inl hc⟩⟩
  · split
    · exact ⟨rfl, rfl, Or.inl ⟨⟨rfl, rfl⟩, Or.inl hc⟩⟩
    · split
      · exact ⟨rfl, rfl, Or.inl ⟨⟨rfl, rfl⟩, Or.inl hc⟩⟩
      · split <;> exact ⟨rfl, rfl, Or.inl ⟨⟨rfl, rfl⟩, Or.inl hc⟩⟩
    · split <;> exact ⟨rfl, rfl, Or.inl ⟨⟨rfl, rfl⟩, Or.inl hc⟩⟩

theorem chmLimit_other (hop : call.alevel = .chanop) (c : UInt8)
    (hc : takesNone w.dir c = (w.dir != .add)) : OtherLetter call c w (chmLimit call c w) := by
  unfold chmLimit
  rw [if_neg (not_not_intro hop)]
  split
  · rename_i hdir
    exact ⟨rfl, rfl, Or.inl ⟨⟨rfl, rfl⟩, Or.inl (by rw [hc, hdir]; rfl)⟩⟩
  · rename_i hdir
    split
    · rename_i hparn
      have hfalse : takesNone w.dir c = false := by rw [hc, hdir]; rfl
      dsimp only
      split
      · exact ⟨rfl, rfl, Or.inr (Or.inr ⟨hfalse, hparn, rfl, Nat.le_refl _⟩)⟩
      · exact ⟨rfl, rfl, Or.inr (Or.inr ⟨hfalse, hparn, rfl, Nat.le_refl _⟩)⟩
    · rename_i hparn
      exact ⟨rfl, rfl, Or.inl ⟨⟨rfl, rfl⟩, Or.inr (Nat.le_of_not_lt hparn)⟩⟩
  · rename_i hdir
    have htrue : takesNone w.dir c = true := by rw [hc, hdir]; rfl
    split
    · exact ⟨rfl, rfl, Or.inl ⟨⟨rfl, rfl⟩, Or.inl htrue⟩⟩
    · exact ⟨rfl, rfl, Or.inl ⟨⟨rfl, rfl⟩, Or.inl htrue⟩⟩

theorem chmKey_other (hop : call.alevel = .chanop) (c : UInt8)
    (hc : takesNone w.dir c = (w.dir == .query)) : OtherLetter call c w (chmKey call c w) := by
  unfold chmKey
  rw [if_neg (not_not_intro hop)]
  split
  · rename_i hdir
    exact ⟨rfl, rfl, Or.inl ⟨⟨rfl, rfl⟩, Or.inl (by rw [hc, hdir]; rfl)⟩⟩
  · rename_i hdir
    have hfalse : takesNone w.dir c = false := by rw [hc, hdir]; rfl
    split
    · rename_i hparn
      generalize (if call.source.myClient then fixKey (w.arg call) else fixKeyRemote (w.arg call)) = key
      dsimp only
      split
      · exact ⟨rfl, rfl, Or.inr (Or.inr ⟨hfalse, hparn, rfl, Nat.le_refl _⟩)⟩
      · exact ⟨rfl, rfl, Or.inr (Or.inr ⟨hfalse, hparn, rfl, Nat.le_refl _⟩)⟩
    · rename_i hparn
      exact ⟨rfl, rfl, Or.inl ⟨⟨rfl, rfl⟩, Or.inr (Nat.le_of_not_lt hparn)⟩⟩
  · rename_i hdir
    have hfalse : takesNone w.dir c = false := by rw [hc, hdir]; rfl
    by_cases hparn : w.parn < call.parv.length
    · rw [if_pos hparn]
      dsimp only
      split
      · exact ⟨rfl, rfl, Or.inr (Or.inr ⟨hfalse, hparn, rfl, Nat.le_refl _⟩)⟩
      · exact ⟨rfl, rfl, Or.inr (Or.inr ⟨hfalse, hparn, rfl, Nat.le_refl _⟩)⟩
    · rw [if_neg hparn]
      dsimp only
      split
      · exact ⟨rfl, rfl, Or.inl ⟨⟨rfl, rfl⟩, Or.inr (Nat.le_of_not_lt hparn)⟩⟩
      · exact ⟨rfl, rfl, Or.inl ⟨⟨rfl, rfl⟩, Or.inr (Nat.le_of_not_lt hparn)⟩⟩

theorem chmStatus_other {st : StatusMode} (hallowed : st.allowed call.alevel = true) (c : UInt8)
    (hc : takesNone w.dir c = (w.dir == .query)) : OtherLetter call c w (chmStatus st call c w) := by
  unfold chmStatus
  rw [if_neg (by rw [hallowed]; decide)]
  by_cases hquery : w.dir = .query
  · rw [if_pos (Or.inl hquery)]
    exact ⟨rfl, rfl, Or.inl ⟨⟨rfl, rfl⟩, Or.inl (by rw [hc, hquery]; rfl)⟩⟩
  by_cases hparn : call.parv.length ≤ w.parn
  · rw [if_pos (Or.inr hparn)]
    exact ⟨rfl, rfl, Or.inl ⟨⟨rfl, rfl⟩, Or.inr hparn⟩⟩
  have hfalse : takesNone w.dir c = false := by
    rw [hc, beq_eq_false_iff_ne]
    exact hquery
  have htook : ∀ w' : Walk, w'.maskPos = w.maskPos → w'.dir = w.dir → w'.parn = w.parn + 1 →
      w.modeLimit ≤ w'.modeLimit → OtherLetter call c w w' := fun w' hpos hdir hp hlimit =>
    ⟨hpos, hdir, Or.inr (Or.inr ⟨hfalse, Nat.lt_of_not_le hparn, hp, hlimit⟩)⟩
  rw [if_neg (not_or.mpr ⟨hquery, hparn⟩)]
  dsimp only
  split
  · exact htook _ rfl rfl rfl (Nat.le_refl _)
  split
  · exact htook _ rfl rfl rfl (Nat.le_refl _)
  split
  · exact htook _ rfl rfl rfl (Nat.le_refl _)
  -- From here on the change may have been counted.
  unfold Walk.count
  split
  · dsimp only
    split
    · exact htook _ rfl rfl rfl (Nat.le_succ _)
    split
    · split <;> exact htook _ rfl rfl rfl (Nat.le_succ _)
    split
    · exact htook _ rfl rfl rfl (Nat.le_succ _)
    split <;> exact htook _ rfl rfl rfl (Nat.le_succ _)
  · dsimp only
    rw [if_neg Bool.false_ne_true]
    split
    · split <;> exact htook _ rfl rfl rfl (Nat.le_refl _)
    split
    · exact htook _ rfl rfl rfl (Nat.le_refl _)
    split <;> exact htook _ rfl rfl rfl (Nat.le_refl _)

/-- The letters of `ModeTable` that are not about a list. -/
theorem modeTable_other (hmy : call.source.myClient = true) (hop : call.alevel = .chanop) (c : UInt8) :
    OtherLetter call c w (modeTable call c w) := by
  unfold modeTable
  split
  case h_1 h => exact chmSslonly_other c (by simp [takesNone, h])
  case h_2 h => exact chmStatus_other (by rw [hop]; rfl) c (by simp [takesNone, h])
  case h_3 h => exact chmSimple_other hmy hop c _ _ (by simp [takesNone, h])
  case h_4 h => exact chmKey_other hop c (by simp [takesNone, h])
  case h_5 h => exact chmLimit_other hop c (by simp [takesNone, h])
  case h_6 h => exact chmSimple_other hmy hop c _ _ (by simp [takesNone, h])
  case h_7 h => exact chmSimple_other hmy hop c _ _ (by simp [takesNone, h])
  case h_8 h => exact chmStatus_other (by rw [hop]; rfl) c (by simp [takesNone, h])
  case h_9 h => exact chmSimple_other hmy hop c _ _ (by simp [takesNone, h])
  case h_10 h => exact chmRegonly_other c (by simp [takesNone, h])
  case h_11 h => exact chmSimple_other hmy hop c _ _ (by simp [takesNone, h])
  case h_12 h => exact chmSimple_other hmy hop c _ _ (by simp [takesNone, h])
  case h_13 h => exact chmStatus_other (by rw [hop]; rfl) c (by simp [takesNone, h])
  case h_14 h => exact chmSimple_other hmy hop c _ _ (by simp [takesNone, h])
  case h_15 =>
    have hnone : takesNone w.dir c = true := by
      unfold takesNone
      split <;> simp_all
    exact ⟨rfl, rfl, Or.inl ⟨⟨rfl, rfl⟩, Or.inl hnone⟩⟩

/-- The walk has come this far with masks and parameters. -/
structure At (w : Walk) (dir : Dir) (maskPos parn modeLimit : Nat) : Prop where
  dir : w.dir = dir
  maskPos : w.maskPos = maskPos
  parn : w.parn = parn
  modeLimit : w.modeLimit = modeLimit

theorem applyBan_at (c : UInt8) (k : BanType) {w : Walk} {mask raw : Bytes} :
    At (applyBan call c k w mask raw) w.dir w.maskPos w.parn w.modeLimit := by
  unfold applyBan
  split
  · split
    · exact ⟨rfl, rfl, rfl, rfl⟩
    · exact ⟨rfl, rfl, rfl, rfl⟩
  · split
    · exact ⟨rfl, rfl, rfl, rfl⟩
    · split
      · exact ⟨rfl, rfl, rfl, rfl⟩
      · exact ⟨rfl, rfl, rfl, rfl⟩

/-- Without a direction or a parameter the list is shown. -/
theorem banRequest_of_query (hop : call.alevel = .chanop)
    (k : BanType) (h : w.dir = .query ∨ call.parv.length ≤ w.parn) :
    ∃ w', banRequest call k w = some (w', none) ∧ At w' w.dir w.maskPos w.parn w.modeLimit := by
  unfold banRequest
  have hused : ¬ (!k.used call.cfg && call.source.myClient && w.dir == .add &&
      decide (w.parn < call.parv.length)) = true := by
    rcases h with h | h
    · simp [h]
    · simp [Nat.not_lt.mpr h]
  rw [if_neg hused, if_pos h, if_neg (c := call.alevel ≠ .chanop ∧ k ≠ .ban) fun hn => hn.1 hop]
  split
  · exact ⟨w, rfl, rfl, rfl, rfl, rfl⟩
  · exact ⟨_, rfl, rfl, rfl, rfl, rfl⟩

/-- Otherwise a mask is taken, unless there were four changes, or it is no mask. -/
theorem banRequest_of_mask (hmy : call.source.myClient = true) (hop : call.alevel = .chanop)
    (k : BanType) (hquery : ¬ (w.dir = .query ∨ call.parv.length ≤ w.parn))
    (hused : ¬ (k.used call.cfg = false ∧ w.dir = .add)) :
    banRequest call k w =
      if 4 ≤ w.modeLimit then some ({ w with modeLimit := w.modeLimit + 1 }, none)
      else if w.arg call = [] ∨ (w.arg call).head? = some 58 then
        some ({ w with modeLimit := w.modeLimit + 1, parn := w.parn + 1 }, none)
      else if bufSize - w.maskPos < (collapse (checkString (w.arg call))).length + 5 then none
      else some ({ w with
          modeLimit := w.modeLimit + 1
          parn := w.parn + 1
          maskPos := w.maskPos + (prettyText (w.arg call)).length + 1 },
        some (prettyText (w.arg call), w.arg call)) := by
  have hunused : ¬ (!k.used call.cfg && call.source.myClient && w.dir == .add &&
      decide (w.parn < call.parv.length)) = true := by
    intro h
    simp only [Bool.and_eq_true, Bool.not_eq_true', beq_iff_eq] at h
    exact hused ⟨h.1.1.1, h.1.2⟩
  unfold banRequest
  rw [if_neg hunused, if_neg hquery, if_neg (not_not_intro hop)]
  simp only [Walk.count, hmy, if_true]
  by_cases hfull : 4 ≤ w.modeLimit
  · have hover : decide (w.modeLimit + 1 > maxModeParams) = true := decide_eq_true (Nat.lt_succ_of_le hfull)
    rw [if_pos hfull, if_pos hover]
  · have hunder : ¬ decide (w.modeLimit + 1 > maxModeParams) = true := by
      rw [decide_eq_true_eq]
      exact fun h => hfull (Nat.le_of_lt_succ h)
    rw [if_neg hfull, if_neg hunder]
    have harg : Walk.arg { w with modeLimit := w.modeLimit + 1 } call = w.arg call := rfl
    rw [harg]
    by_cases hskip : w.arg call = [] ∨ (w.arg call).head? = some 58
    · rw [if_pos hskip, if_pos hskip]
    · rw [if_neg hskip, if_neg hskip, if_neg (by decide), prettyMask_eq]
      by_cases hroom : bufSize - w.maskPos < (collapse (checkString (w.arg call))).length + 5
      · simp only [if_pos hroom]
      · simp only [if_neg hroom]
        -- What `pretty_mask` writes is never too long for `chm_ban`.
        have hshort := prettyText_length_le_max (w.arg call)
        rw [if_neg (by simp only [modeBufLen]; omega)]

/-- What a letter of a list does for a local channel operator: it only shows the list or is
    refused, is over the limit, skips a parameter, or takes a mask. -/
theorem chmBan_cases (hmy : call.source.myClient = true) (hop : call.alevel = .chanop) (c : UInt8)
    (k : BanType) :
    ((w.dir = .query ∨ (k.used call.cfg = false ∧ w.dir = .add) ∨ call.parv.length ≤ w.parn) ∧
      ∃ w', chmBan call c k w = some w' ∧ At w' w.dir w.maskPos w.parn w.modeLimit) ∨
    (¬ (w.dir = .query ∨ (k.used call.cfg = false ∧ w.dir = .add)) ∧ w.parn < call.parv.length ∧
      ((4 ≤ w.modeLimit ∧
          ∃ w', chmBan call c k w = some w' ∧ At w' w.dir w.maskPos w.parn (w.modeLimit + 1)) ∨
        (w.modeLimit < 4 ∧ (w.arg call = [] ∨ (w.arg call).head? = some 58) ∧
          ∃ w', chmBan call c k w = some w' ∧ At w' w.dir w.maskPos (w.parn + 1) (w.modeLimit + 1)) ∨
        (w.modeLimit < 4 ∧ w.arg call ≠ [] ∧ (w.arg call).head? ≠ some 58 ∧
          ((bufSize - w.maskPos < (collapse (checkString (w.arg call))).length + 5 ∧
              chmBan call c k w = none) ∨
            (¬ bufSize - w.maskPos < (collapse (checkString (w.arg call))).length + 5 ∧
              ∃ w', chmBan call c k w = some w' ∧
              At w' w.dir (w.maskPos + (prettyText (w.arg call)).length + 1) (w.parn + 1)
                (w.modeLimit + 1)))))) := by
  by_cases hquery : w.dir = .query ∨ call.parv.length ≤ w.parn
  · obtain ⟨w', hreq, hat⟩ := banRequest_of_query hop k hquery
    exact Or.inl ⟨hquery.imp_right Or.inr, w', by rw [chmBan, hreq], hat⟩
  · have hparn : w.parn < call.parv.length := Nat.lt_of_not_le fun h => hquery (Or.inr h)
    by_cases hunused : k.used call.cfg = false ∧ w.dir = .add
    · have hreq : banRequest call k w = some (w, none) := by
        unfold banRequest
        rw [if_pos (by simp [hmy, hunused.1, hunused.2, hparn])]
      exact Or.inl ⟨Or.inr (Or.inl hunused), w, by rw [chmBan, hreq], rfl, rfl, rfl, rfl⟩
    · refine Or.inr ⟨fun h => h.elim (fun h => hquery (Or.inl h)) hunused, hparn, ?_⟩
      have hreq := banRequest_of_mask hmy hop k hquery hunused
      by_cases hfull : 4 ≤ w.modeLimit
      · rw [if_pos hfull] at hreq
        exact Or.inl ⟨hfull, { w with modeLimit := w.modeLimit + 1 }, by rw [chmBan, hreq],
          rfl, rfl, rfl, rfl⟩
      · rw [if_neg hfull] at hreq
        by_cases hskip : w.arg call = [] ∨ (w.arg call).head? = some 58
        · rw [if_pos hskip] at hreq
          exact Or.inr (Or.inl ⟨Nat.lt_of_not_le hfull, hskip,
            { w with modeLimit := w.modeLimit + 1, parn := w.parn + 1 }, by rw [chmBan, hreq],
            rfl, rfl, rfl, rfl⟩)
        · rw [if_neg hskip] at hreq
          obtain ⟨hne, hcolon⟩ := not_or.mp hskip
          refine Or.inr (Or.inr ⟨Nat.lt_of_not_le hfull, hne, hcolon, ?_⟩)
          by_cases hroom : bufSize - w.maskPos < (collapse (checkString (w.arg call))).length + 5
          · rw [if_pos hroom] at hreq
            exact Or.inl ⟨hroom, by rw [chmBan, hreq]⟩
          · rw [if_neg hroom] at hreq
            exact Or.inr ⟨hroom, _, by rw [chmBan, hreq], applyBan_at c k⟩

end Letters

-- ============================================================================
-- The walk
-- ============================================================================

/-- What masks take in the buffer, with the end of each. -/
def space (l : List Bytes) : Nat := (l.map fun t => (prettyText t).length + 1).sum

/-- Up to here every parameter was a mask, and nothing else was counted. -/
structure Clean (ps : List Bytes) (w : Walk) (n : Nat) : Prop where
  parn : w.parn = n + 1
  modeLimit : w.modeLimit = n
  maskPos : w.maskPos = space (ps.take n)
  le : n ≤ ps.length

/-- Each mask was paid for by a letter, its blank and itself, three bytes short; `slack`
    bytes have been paid beyond that. -/
def Paid (ps : List Bytes) (spent slack : Nat) (w : Walk) : Prop :=
  w.maskPos + slack ≤ spent + cost (ps.take (w.parn - 1)) + 3 * w.modeLimit

/-- Some letter has counted, taken another parameter or found none. -/
def Marked (ps : List Bytes) (spent : Nat) (w : Walk) : Prop :=
  1 ≤ w.parn ∧ (Paid ps spent 3 w ∨ ps.length < w.parn)

theorem cost_append (l l' : List Bytes) : cost (l ++ l') = cost l + cost l' := by
  simp [cost]

theorem space_append (l l' : List Bytes) : space (l ++ l') = space l + space l' := by
  simp [space]

theorem getD_eq_getElem {ps : List Bytes} {n : Nat} (h : n < ps.length) : ps.getD n [] = ps[n] := by
  rw [List.getD_eq_getElem?_getD, List.getElem?_eq_getElem h, Option.getD_some]

theorem cost_take_succ {ps : List Bytes} {n : Nat} (h : n < ps.length) :
    cost (ps.take (n + 1)) = cost (ps.take n) + (ps.getD n []).length + 1 := by
  rw [List.take_succ_eq_append_getElem h, cost_append, cost_cons, getD_eq_getElem h]
  rfl

theorem space_take_succ {ps : List Bytes} {n : Nat} (h : n < ps.length) :
    space (ps.take (n + 1)) = space (ps.take n) + (prettyText (ps.getD n [])).length + 1 := by
  rw [List.take_succ_eq_append_getElem h, space_append, getD_eq_getElem h]
  rfl

theorem cost_take_le (ps : List Bytes) (n : Nat) : cost (ps.take n) ≤ cost ps := by
  conv_rhs => rw [← List.take_append_drop n ps, cost_append]
  exact Nat.le_add_right _ _

section Walk

variable {call : Call} {first : Bytes} {ps : List Bytes} {w w' : Walk} {spent n slack : Nat}

theorem arg_eq (hparv : call.parv = first :: ps) (h : w.parn = n + 1) : w.arg call = ps.getD n [] := by
  rw [Walk.arg, hparv, h]
  rfl

theorem Paid.idle (h : Paid ps spent slack w) (hpos : w'.maskPos = w.maskPos) (hparn : w'.parn = w.parn)
    (hlimit : w'.modeLimit = w.modeLimit) : Paid ps (spent + 1) slack w' := by
  unfold Paid at h ⊢
  rw [hpos, hparn, hlimit]
  omega

theorem Paid.counted (h : Paid ps spent slack w) (hpos : w'.maskPos = w.maskPos)
    (hparn : w'.parn = w.parn) (hlimit : w'.modeLimit = w.modeLimit + 1) :
    Paid ps (spent + 1) (slack + 3) w' := by
  unfold Paid at h ⊢
  rw [hpos, hparn, hlimit]
  omega

theorem Paid.took (h : Paid ps spent slack w) (hn : w.parn = n + 1) (hlt : n < ps.length)
    (hpos : w'.maskPos = w.maskPos) (hparn : w'.parn = w.parn + 1)
    (hlimit : w.modeLimit ≤ w'.modeLimit) :
    Paid ps (spent + 1) (slack + (ps.getD n []).length + 2) w' := by
  unfold Paid at h ⊢
  rw [hn, Nat.add_sub_cancel] at h
  rw [hpos, hparn, hn, Nat.add_sub_cancel, cost_take_succ hlt]
  omega

theorem Paid.mask (h : Paid ps spent slack w) (hn : w.parn = n + 1) (hlt : n < ps.length)
    (hne : ps.getD n [] ≠ [])
    (hpos : w'.maskPos = w.maskPos + (prettyText (ps.getD n [])).length + 1)
    (hparn : w'.parn = w.parn + 1) (hlimit : w'.modeLimit = w.modeLimit + 1) :
    Paid ps (spent + 1) slack w' := by
  have hmask := prettyText_length_le hne
  unfold Paid at h ⊢
  rw [hn, Nat.add_sub_cancel] at h
  rw [hpos, hparn, hn, Nat.add_sub_cancel, cost_take_succ hlt, hlimit]
  omega

theorem Paid.mono {slack' : Nat} (h : Paid ps spent slack w) (hle : slack' ≤ slack) :
    Paid ps spent slack' w := by
  unfold Paid at h ⊢
  omega

/-- The parameters but the last are words. -/
def WordsButLast (ps : List Bytes) : Prop := ∀ i, i + 1 < ps.length → Word (ps.getD i [])

variable {c : UInt8}

theorem Marked.idle (h : Marked ps spent w) (hpos : w'.maskPos = w.maskPos) (hparn : w'.parn = w.parn)
    (hlimit : w.modeLimit ≤ w'.modeLimit) : Marked ps (spent + 1) w' := by
  refine ⟨hparn ▸ h.1, h.2.imp (fun hpaid => ?_) fun hlt => hparn ▸ hlt⟩
  unfold Paid at hpaid ⊢
  rw [hpos, hparn]
  omega

theorem Marked.took (h : Marked ps spent w) (hpos : w'.maskPos = w.maskPos) (hparn : w'.parn = w.parn + 1)
    (hlimit : w.modeLimit ≤ w'.modeLimit) (hlt : w.parn < ps.length + 1) : Marked ps (spent + 1) w' := by
  obtain ⟨n, hn⟩ := Nat.exists_eq_add_of_le' h.1
  refine ⟨by omega, h.2.imp (fun hpaid => ?_) fun hlt' => by omega⟩
  exact (hpaid.took hn (by omega) hpos hparn hlimit).mono (by omega)

/-- After a letter that counted or took another parameter, that stays so. -/
theorem Marked.step (hparv : call.parv = first :: ps) (hmy : call.source.myClient = true)
    (hop : call.alevel = .chanop) (h : Marked ps spent w) (hstep : letterStep call c w = some w') :
    Marked ps (spent + 1) w' := by
  have hlen : call.parv.length = ps.length + 1 := by rw [hparv, List.length_cons]
  have hidle : ∀ d : Dir, Marked ps (spent + 1) { w with dir := d } := fun d =>
    h.idle rfl rfl (Nat.le_refl _)
  unfold letterStep at hstep
  split at hstep
  · obtain rfl := Option.some.inj hstep
    exact hidle .add
  split at hstep
  · obtain rfl := Option.some.inj hstep
    exact hidle .del
  split at hstep
  · obtain rfl := Option.some.inj hstep
    exact hidle .query
  split at hstep
  · rename_i k hk
    obtain ⟨-, v, hv, hat⟩ | ⟨-, hlt, ⟨-, v, hv, hat⟩ | ⟨-, -, v, hv, hat⟩ | ⟨-, hne, -,
      ⟨-, hv⟩ | ⟨-, v, hv, hat⟩⟩⟩ := chmBan_cases (w := w) hmy hop c k
    · obtain rfl : v = w' := Option.some.inj (hv.symm.trans hstep)
      exact h.idle hat.maskPos hat.parn hat.modeLimit.ge
    · obtain rfl : v = w' := Option.some.inj (hv.symm.trans hstep)
      exact h.idle hat.maskPos hat.parn (by rw [hat.modeLimit]; exact Nat.le_succ _)
    · obtain rfl : v = w' := Option.some.inj (hv.symm.trans hstep)
      exact h.took hat.maskPos hat.parn (by rw [hat.modeLimit]; exact Nat.le_succ _) (hlen ▸ hlt)
    · rw [hv] at hstep
      cases hstep
    · obtain rfl : v = w' := Option.some.inj (hv.symm.trans hstep)
      obtain ⟨n, hn⟩ := Nat.exists_eq_add_of_le' h.1
      rw [arg_eq hparv hn] at hne
      have hpos := hat.maskPos
      rw [arg_eq hparv hn] at hpos
      refine ⟨by rw [hat.parn]; omega, h.2.imp (fun hpaid => ?_) fun hlt' => by omega⟩
      exact hpaid.mask hn (by omega) hne hpos hat.parn hat.modeLimit
  · obtain rfl := Option.some.inj hstep
    obtain ⟨hpos, -, ⟨⟨hparn, hlimit⟩, -⟩ | ⟨-, hparn, hlimit⟩ | ⟨-, hlt, hparn, hlimit⟩⟩ :=
      modeTable_other (w := w) hmy hop c
    · exact h.idle hpos hparn hlimit.ge
    · exact h.idle hpos hparn (by rw [hlimit]; exact Nat.le_succ _)
    · exact h.took hpos hparn hlimit (hlen ▸ hlt)

theorem Clean.idle (h : Clean ps w n) (hpos : w'.maskPos = w.maskPos) (hparn : w'.parn = w.parn)
    (hlimit : w'.modeLimit = w.modeLimit) : Clean ps w' n :=
  ⟨hparn.trans h.parn, hlimit.trans h.modeLimit, hpos.trans h.maskPos, h.le⟩

theorem Clean.mask (h : Clean ps w n) (hlt : n < ps.length)
    (hpos : w'.maskPos = w.maskPos + (prettyText (ps.getD n [])).length + 1)
    (hparn : w'.parn = w.parn + 1) (hlimit : w'.modeLimit = w.modeLimit + 1) : Clean ps w' (n + 1) :=
  ⟨by rw [hparn, h.parn], by rw [hlimit, h.modeLimit], by rw [hpos, h.maskPos, space_take_succ hlt], hlt⟩

/-- What a letter does while all parameters were masks: it changes nothing, takes a mask, or
    counts or takes something else. -/
theorem Clean.step (cs : Bytes) (hparv : call.parv = first :: ps) (hwords : WordsButLast ps)
    (hmy : call.source.myClient = true) (hop : call.alevel = .chanop) (h : Clean ps w n)
    (hpaid : Paid ps spent 0 w) (hstep : letterStep call c w = some w') :
    (Clean ps w' n ∧ Paid ps (spent + 1) 0 w' ∧
        masksRead call.cfg w.dir (c :: cs) = masksRead call.cfg w'.dir cs) ∨
      (Clean ps w' (n + 1) ∧ Paid ps (spent + 1) 0 w' ∧
        masksRead call.cfg w.dir (c :: cs) = masksRead call.cfg w'.dir cs + 1 ∧
        ¬ bufSize - space (ps.take n) < (collapse (checkString (ps.getD n []))).length + 5) ∨
      (Marked ps (spent + 1) w' ∧
        (masksRead call.cfg w.dir (c :: cs) = 0 ∨ ps.length ≤ n ∨ 4 ≤ n ∨
          ps.getD n [] = [] ∨ (ps.getD n []).head? = some 58)) := by
  have hlen : call.parv.length = ps.length + 1 := by rw [hparv, List.length_cons]
  have hparn := h.parn
  unfold letterStep at hstep
  split at hstep
  · rename_i hc
    obtain rfl := Option.some.inj hstep
    exact Or.inl ⟨h.idle rfl rfl rfl, hpaid.idle rfl rfl rfl, masksRead_add hc cs⟩
  rename_i hadd
  split at hstep
  · rename_i hc
    obtain rfl := Option.some.inj hstep
    exact Or.inl ⟨h.idle rfl rfl rfl, hpaid.idle rfl rfl rfl, masksRead_del hadd hc cs⟩
  rename_i hdel
  split at hstep
  · rename_i hc
    obtain rfl := Option.some.inj hstep
    exact Or.inl ⟨h.idle rfl rfl rfl, hpaid.idle rfl rfl rfl, masksRead_query hadd hdel hc cs⟩
  rename_i hquery
  split at hstep
  · rename_i k hk
    rw [masksRead_ban hadd hdel hquery hk]
    obtain ⟨hnone, v, hv, hat⟩ | ⟨htake, hlt, ⟨hfull, v, hv, hat⟩ | ⟨-, hskip, v, hv, hat⟩ | ⟨-, hne, -,
      ⟨-, hv⟩ | ⟨hfits, v, hv, hat⟩⟩⟩ := chmBan_cases (w := w) hmy hop c k
    · obtain rfl : v = w' := Option.some.inj (hv.symm.trans hstep)
      by_cases hq : w.dir = .query ∨ (k.used call.cfg = false ∧ w.dir = .add)
      · rw [if_pos hq, hat.dir]
        exact Or.inl ⟨h.idle hat.maskPos hat.parn hat.modeLimit, hpaid.idle hat.maskPos hat.parn hat.modeLimit, rfl⟩
      · have hout : ps.length ≤ n := by
          rcases hnone with hq' | hq' | hq'
          · exact absurd (Or.inl hq') hq
          · exact absurd (Or.inr hq') hq
          · omega
        have := hat.parn
        exact Or.inr (Or.inr ⟨⟨by omega, Or.inr (by omega)⟩, Or.inr (Or.inl hout)⟩)
    · obtain rfl : v = w' := Option.some.inj (hv.symm.trans hstep)
      have := hat.parn
      refine Or.inr (Or.inr ⟨⟨by omega, Or.inl ?_⟩, Or.inr (Or.inr (Or.inl (h.modeLimit ▸ hfull)))⟩)
      exact hpaid.counted hat.maskPos hat.parn hat.modeLimit
    · obtain rfl : v = w' := Option.some.inj (hv.symm.trans hstep)
      -- Only the last parameter can be skipped.
      rw [arg_eq hparv h.parn] at hskip
      have hlast : ps.length ≤ n + 1 := by
        refine Nat.le_of_not_lt fun hnext => ?_
        have hword := hwords n hnext
        exact hskip.elim hword.ne_nil hword.no_colon
      have := hat.parn
      exact Or.inr (Or.inr ⟨⟨by omega, Or.inr (by omega)⟩, Or.inr (Or.inr (Or.inr hskip))⟩)
    · rw [hv] at hstep
      cases hstep
    · obtain rfl : v = w' := Option.some.inj (hv.symm.trans hstep)
      have hroom : n < ps.length := by omega
      have hpos := hat.maskPos
      rw [arg_eq hparv h.parn] at hne hpos hfits
      rw [h.maskPos] at hfits
      rw [if_neg htake, hat.dir]
      exact Or.inr (Or.inl ⟨h.mask hroom hpos hat.parn hat.modeLimit,
        hpaid.mask h.parn hroom hne hpos hat.parn hat.modeLimit, rfl, hfits⟩)
  · rename_i hk
    rw [masksRead_other hadd hdel hquery hk]
    obtain rfl := Option.some.inj hstep
    obtain ⟨hpos, hdir, ⟨⟨hparn', hlimit⟩, hnone⟩ | ⟨hnone, hparn', hlimit⟩ | ⟨hnone, hlt, hparn', hlimit⟩⟩ :=
      modeTable_other (w := w) hmy hop c
    · by_cases htakes : takesNone w.dir c = true
      · rw [if_pos htakes, hdir]
        exact Or.inl ⟨h.idle hpos hparn' hlimit, hpaid.idle hpos hparn' hlimit, rfl⟩
      · have hout : ps.length ≤ n := by
          have := hnone.resolve_left htakes
          omega
        exact Or.inr (Or.inr ⟨⟨by omega, Or.inr (by omega)⟩, Or.inr (Or.inl hout)⟩)
    · rw [if_neg (by rw [hnone]; exact Bool.false_ne_true)]
      exact Or.inr (Or.inr ⟨⟨by omega, Or.inl (hpaid.counted hpos hparn' hlimit)⟩, Or.inl rfl⟩)
    · rw [if_neg (by rw [hnone]; exact Bool.false_ne_true)]
      have hroom : n < ps.length := by omega
      refine Or.inr (Or.inr ⟨⟨by omega, ?_⟩, Or.inl rfl⟩)
      -- An empty parameter is the last one, another pays for itself.
      by_cases hlast : ps.length ≤ n + 1
      · exact Or.inr (by omega)
      · have hword := hwords n (Nat.lt_of_not_le hlast)
        have hpos' := List.length_pos_of_ne_nil hword.ne_nil
        exact Or.inl ((hpaid.took h.parn hroom hpos hparn' hlimit).mono (by omega))

/-- When a letter is the end of the server. -/
theorem letterStep_eq_none (cs : Bytes) (hmy : call.source.myClient = true) (hop : call.alevel = .chanop)
    (hstep : letterStep call c w = none) :
    w.parn < call.parv.length ∧ w.modeLimit < 4 ∧ w.arg call ≠ [] ∧ (w.arg call).head? ≠ some 58 ∧
      bufSize - w.maskPos < (collapse (checkString (w.arg call))).length + 5 ∧
      masksRead call.cfg w.dir (c :: cs) = masksRead call.cfg w.dir cs + 1 := by
  unfold letterStep at hstep
  split at hstep
  · cases hstep
  rename_i hadd
  split at hstep
  · cases hstep
  rename_i hdel
  split at hstep
  · cases hstep
  rename_i hquery
  split at hstep
  · rename_i k hk
    rw [masksRead_ban hadd hdel hquery hk]
    obtain ⟨-, v, hv, -⟩ | ⟨htake, hlt, ⟨-, v, hv, -⟩ | ⟨-, -, v, hv, -⟩ | ⟨hlimit, hne, hcolon,
      ⟨hroom, -⟩ | ⟨-, v, hv, -⟩⟩⟩ := chmBan_cases (w := w) hmy hop c k
    · rw [hv] at hstep
      cases hstep
    · rw [hv] at hstep
      cases hstep
    · rw [hv] at hstep
      cases hstep
    · exact ⟨hlt, hlimit, hne, hcolon, hroom, if_neg htake⟩
    · rw [hv] at hstep
      cases hstep
  · cases hstep

/-- Where the walk can be after some letters. -/
def Upto (cfg : Config) (first : Bytes) (ps : List Bytes) (spent : Nat) (cs : Bytes) (w : Walk) : Prop :=
  (∃ n, Clean ps w n ∧ Paid ps spent 0 w ∧ masksRead cfg .add first = n + masksRead cfg w.dir cs) ∨
    Marked ps spent w

theorem Upto.step {cs : Bytes} (hparv : call.parv = first :: ps) (hwords : WordsButLast ps)
    (hmy : call.source.myClient = true) (hop : call.alevel = .chanop)
    (h : Upto call.cfg first ps spent (c :: cs) w) (hstep : letterStep call c w = some w') :
    Upto call.cfg first ps (spent + 1) cs w' := by
  obtain ⟨n, hclean, hpaid, hread⟩ | hmarked := h
  · obtain ⟨hclean', hpaid', heq⟩ | ⟨hclean', hpaid', heq, -⟩ | ⟨hmarked, -⟩ :=
      hclean.step cs hparv hwords hmy hop hpaid hstep
    · exact Or.inl ⟨n, hclean', hpaid', by rw [hread, heq]⟩
    · exact Or.inl ⟨n + 1, hclean', hpaid', by rw [hread, heq]; omega⟩
    · exact Or.inr hmarked
  · exact Or.inr (hmarked.step hparv hmy hop hstep)

/-- A walk that crashes has met a crowded command. -/
theorem crowded_of_letters_none (hparv : call.parv = first :: ps) (hwords : WordsButLast ps)
    (hmy : call.source.myClient = true) (hop : call.alevel = .chanop)
    (hbudget : first.length + cost ps ≤ 503) : ∀ (cs : Bytes) (w : Walk) (spent : Nat),
    spent + cs.length = first.length → Upto call.cfg first ps spent cs w → letters call cs w = none →
    Crowded call.cfg call.parv := by
  intro cs
  induction cs with
  | nil => intro w spent _ _ h; cases h
  | cons c cs ih =>
    intro w spent hspent hupto h
    rw [letters] at h
    cases hstep : letterStep call c w with
    | some w' =>
      rw [hstep] at h
      rw [List.length_cons] at hspent
      exact ih w' (spent + 1) (by omega) (hupto.step hparv hwords hmy hop hstep) h
    | none =>
      obtain ⟨hlt, hlimit, hne, hcolon, hroom, hread⟩ := letterStep_eq_none cs hmy hop hstep
      rw [hparv, List.length_cons] at hlt
      have hmask := (collapse_sublist _).1.length_le.trans (checkString_length_le hne)
      -- The line is too short for this, unless three masks came before and nothing else.
      have hshort : ∀ m slack, w.parn = m + 1 → Paid ps spent slack w → w.modeLimit * 3 < slack + 7 →
          False := by
        intro m slack hm hpaid hsmall
        have hstep := @cost_take_succ ps m (by omega)
        have hall := cost_take_le ps (m + 1)
        rw [arg_eq hparv hm] at hmask hroom
        unfold Paid at hpaid
        rw [hm, Nat.add_sub_cancel] at hpaid
        rw [List.length_cons] at hspent
        simp only [bufSize] at hroom
        omega
      obtain ⟨n, hclean, hpaid, hfirst⟩ | ⟨hone, hpaid | hout⟩ := hupto
      · have hn : n = 3 := by
          have := hclean.modeLimit
          by_contra hn
          exact hshort n 0 hclean.parn hpaid (by omega)
        subst hn
        have hparn := hclean.parn
        rw [arg_eq hparv hparn] at hcolon hroom
        obtain _ | ⟨m₁, _ | ⟨m₂, _ | ⟨m₃, _ | ⟨m₄, rest⟩⟩⟩⟩ := ps
        case cons.cons.cons.cons =>
          refine ⟨first, m₁, m₂, m₃, m₄, rest, hparv, by omega, hcolon, ?_⟩
          have hspace : space [m₁, m₂, m₃] = ((prettyText m₁).length + 1) + (((prettyText m₂).length + 1) +
            (((prettyText m₃).length + 1) + 0)) := rfl
          have hpos : w.maskPos = space [m₁, m₂, m₃] := hclean.maskPos
          change bufSize - w.maskPos < (collapse (checkString m₄)).length + 5 at hroom
          omega
        all_goals
          simp only [List.length_cons, List.length_nil] at hlt
          omega
      · obtain ⟨m, hm⟩ := Nat.exists_eq_add_of_le' hone
        exact (hshort m 3 hm hpaid (by omega)).elim
      · omega

/-- A crowded command crashes. -/
theorem letters_none_of_crowded (hparv : call.parv = first :: ps) (hwords : WordsButLast ps)
    (hmy : call.source.myClient = true) (hop : call.alevel = .chanop) (hfour : 4 ≤ ps.length)
    (hne : ps.getD 3 [] ≠ []) (hcolon : (ps.getD 3 []).head? ≠ some 58)
    (hroom : bufSize - space (ps.take 3) < (collapse (checkString (ps.getD 3 []))).length + 5) :
    ∀ (cs : Bytes) (w : Walk) (spent n : Nat), Clean ps w n → Paid ps spent 0 w → n ≤ 3 →
      4 ≤ n + masksRead call.cfg w.dir cs → letters call cs w = none := by
  intro cs
  induction cs with
  | nil =>
    intro w spent n _ _ hn hread
    rw [masksRead] at hread
    omega
  | cons c cs ih =>
    intro w spent n hclean hpaid hn hread
    rw [letters]
    cases hstep : letterStep call c w with
    | none => rfl
    | some w' =>
      obtain ⟨hclean', hpaid', heq⟩ | ⟨hclean', hpaid', heq, hfits⟩ | ⟨-, hzero | hout | hfull | hskip⟩ :=
        hclean.step cs hparv hwords hmy hop hpaid hstep
      · exact ih w' (spent + 1) n hclean' hpaid' hn (heq ▸ hread)
      · have hlt : n ≠ 3 := by
          rintro rfl
          exact hfits hroom
        exact ih w' (spent + 1) (n + 1) hclean' hpaid' (by omega) (by omega)
      · omega
      · omega
      · omega
      · by_cases hlast : n = 3
        · subst hlast
          exact (hskip.elim hne hcolon).elim
        · have hword := hwords n (by omega)
          exact (hskip.elim hword.ne_nil hword.no_colon).elim

end Walk

-- ============================================================================
-- A line of a channel operator
-- ============================================================================

section Line

variable {cfg : Config} {srv : Server} {c p : Nat} {source : Client} {operspy : Bool}
  {history : Bytes → Option Nat} {now : Int} {line : Bytes} {call : Call}

/-- What a line that gets as far as `set_channel_mode` is. -/
theorem lineCall_eq_some (h : lineCall cfg srv c source operspy history now line = some (p, call)) :
    ∃ dest first ps target, modeParams line = some (dest :: first :: ps) ∧ dest ≠ [] ∧
      findChannel srv.table target = some p ∧
      call = modeCall cfg srv source ((srv.table.chan p).findMembership c) ⟨c, first :: ps, history, now⟩ := by
  unfold lineCall at h
  split at h
  · rename_i dest parv hparams
    dsimp only at h
    generalize hdest : (if operspy = true ∧ dest.head? = some 33 then dest.tail else dest) = target at h
    unfold mMode at h
    split at h
    · cases h
    rename_i hname
    obtain ⟨first, ps, rfl⟩ : ∃ first ps, parv = first :: ps := by
      refine List.exists_cons_of_ne_nil fun hnil => hname ?_
      simp [hnil]
    have hne : dest ≠ [] := by
      rintro rfl
      obtain rfl : [] = target := by simpa using hdest
      exact hname rfl
    split at h
    · cases h
    · rename_i q hfound
      dsimp only at h
      split at h
      · cases h
      · obtain ⟨rfl, rfl⟩ := Prod.mk.inj (Option.some.inj h)
        exact ⟨dest, first, ps, target, hparams, hne, hfound, rfl⟩
  · cases h

theorem wordsButLast_of_modeParams {dest first : Bytes} {ps : List Bytes}
    (h : modeParams line = some (dest :: first :: ps)) : WordsButLast ps := by
  unfold modeParams at h
  split at h
  · cases h
  split at h
  · rename_i cmd s _ _
    intro i hi
    have hmem : ps.getD i [] ∈ (rbStringToArray s 15).dropLast := by
      rw [Option.some.inj h, getD_eq_getElem (Nat.lt_of_succ_lt hi)]
      have hrest : ps.dropLast.length = ps.length - 1 := List.length_dropLast
      have hget : ps.dropLast[i] = ps[i] := List.getElem_dropLast (by omega)
      rw [List.dropLast_cons_of_ne_nil (List.cons_ne_nil _ _),
        List.dropLast_cons_of_ne_nil (List.ne_nil_of_length_pos (by omega)), ← hget]
      exact List.mem_cons_of_mem _ (List.mem_cons_of_mem _ (List.getElem_mem _))
    exact (Bandb.rbStringToArray_dropLast _ hmem).1
  · cases h

theorem clean_start (ps : List Bytes) (ch : Channel) : Clean ps (Walk.start ch) 0 ∧
    Paid ps 0 0 (Walk.start ch) :=
  ⟨⟨rfl, rfl, rfl, Nat.zero_le _⟩, Nat.zero_le _⟩

/-- A line of a channel operator is carried out, and every mask in it written, exactly when
    its masks are not crowded. -/
theorem setChannelMode_isSome_iff
    (hline : lineCall cfg srv c source operspy history now line = some (p, call))
    (hlen : line.length ≤ 510) (hmy : source.myClient = true)
    (hop : ((srv.table.chan p).findMembership c).any (·.isChanop) = true) :
    (setChannelMode call (srv.table.chan p)).isSome = true ↔ ¬ Crowded cfg call.parv := by
  obtain ⟨dest, first, ps, -, hparams, hdest, -, rfl⟩ := lineCall_eq_some hline
  have hcost := cost_modeParams hparams
  have hwords := wordsButLast_of_modeParams hparams
  have hpos := List.length_pos_of_ne_nil hdest
  simp only [cost_cons] at hcost
  generalize hcall : modeCall cfg srv source ((srv.table.chan p).findMembership c)
    ⟨c, first :: ps, history, now⟩ = call
  have hparv : call.parv = first :: ps := by rw [← hcall]; rfl
  have hcfg : call.cfg = cfg := by rw [← hcall]; rfl
  have hmy' : call.source.myClient = true := by rw [← hcall]; exact hmy
  have hlevel : call.alevel = .chanop := by
    rw [← hcall]
    show getChannelAccess source _ = _
    rw [getChannelAccess, hop, Bool.or_true, if_pos rfl]
  obtain ⟨hclean, hpaid⟩ := clean_start ps (srv.table.chan p)
  have hwalk : setChannelMode call (srv.table.chan p) = letters call first (Walk.start (srv.table.chan p)) := by
    rw [setChannelMode, hparv]
    rfl
  rw [hwalk, ← Option.ne_none_iff_isSome, not_iff_not, ← hcfg]
  constructor
  · refine crowded_of_letters_none hparv hwords hmy' hlevel (by omega) first _ 0 (Nat.zero_add _) ?_
    exact Or.inl ⟨0, hclean, hpaid, (Nat.zero_add _).symm⟩
  · rintro ⟨first', m₁, m₂, m₃, m₄, rest, heq, hread, hcolon, hroom⟩
    obtain ⟨rfl, rfl⟩ := List.cons.inj (hparv.symm.trans heq)
    have hspace : space [m₁, m₂, m₃] = ((prettyText m₁).length + 1) + (((prettyText m₂).length + 1) +
      (((prettyText m₃).length + 1) + 0)) := rfl
    have h₁ := prettyText_length_le_max m₁
    have h₂ := prettyText_length_le_max m₂
    have h₃ := prettyText_length_le_max m₃
    simp only [bufSize] at hroom
    refine letters_none_of_crowded hparv hwords hmy' hlevel (by simp only [List.length_cons]; omega) ?_ hcolon ?_
      first _ 0 0 hclean hpaid (Nat.zero_le _) (by rw [Nat.zero_add]; exact hread)
    · -- An empty fourth mask fits always.
      show m₄ ≠ []
      rintro rfl
      have hstar : (collapse (checkString [])).length = 1 := rfl
      omega
    · show bufSize - space [m₁, m₂, m₃] < (collapse (checkString m₄)).length + 5
      simp only [bufSize]
      omega

end Line

/-- `alice` is the operator of the channel `#`. -/
def hashServer : Server :=
  [Action.introduce alice, .join 0 [35] [] true false 10].foldl
    (Reach.perform (Server.step plainConfig)) Server.start

/-- A line of `alice`. -/
def aliceCall (line : Bytes) : Option (Nat × Call) :=
  lineCall plainConfig hashServer 0 alice false (fun _ => none) 20 line

/-- `MODE # bbbb x x x ` with a fourth mask of `n` bytes. -/
def fourMasks (n : Nat) : Bytes :=
  [77, 79, 68, 69, 32, 35, 32, 98, 98, 98, 98, 32, 120, 32, 120, 32, 120, 32] ++ List.replicate n 121

/-- Four short masks are fine. -/
theorem setChannelMode_isSome_short : ∃ call, aliceCall (fourMasks 9) = some (0, call) ∧
    (setChannelMode call (hashServer.table.chan 0)).isSome = true := by
  have hparv : (aliceCall (fourMasks 9)).map (·.2.parv) =
      some [[98, 98, 98, 98], [120], [120], [120], List.replicate 9 121] := by decide +kernel
  obtain ⟨call, hcall⟩ : ∃ call, aliceCall (fourMasks 9) = some (0, call) := ⟨_, rfl⟩
  rw [hcall] at hparv
  refine ⟨call, hcall, ?_⟩
  refine (setChannelMode_isSome_iff hcall (by decide) rfl (by decide +kernel)).mpr ?_
  rintro ⟨first, m₁, m₂, m₃, m₄, rest, heq, -, -, hroom⟩
  obtain ⟨rfl, rfl, rfl, rfl, rfl, rfl⟩ : first = _ ∧ m₁ = _ ∧ m₂ = _ ∧ m₃ = _ ∧ m₄ = _ ∧ rest = [] := by
    simpa [heq] using hparv
  exact absurd hroom (by decide +kernel)

/-- The fourth mask of a line of 508 bytes does not fit. -/
theorem not_isSome_fourMasks : ¬ ∀ (cfg : Config) (srv : Server) (c p : Nat) (source : Client)
    (operspy : Bool) (history : Bytes → Option Nat) (now : Int) (line : Bytes) (call : Call),
    lineCall cfg srv c source operspy history now line = some (p, call) → line.length ≤ 510 →
    source.myClient = true → ((srv.table.chan p).findMembership c).any (·.isChanop) = true →
    (setChannelMode call (srv.table.chan p)).isSome = true := by
  intro h
  have hcrash : ((aliceCall (fourMasks 490)).map fun x =>
      (setChannelMode x.2 (hashServer.table.chan x.1)).isSome) = some false := by
    decide +kernel
  cases hcall : aliceCall (fourMasks 490) with
  | none =>
    rw [hcall] at hcrash
    cases hcrash
  | some x =>
    obtain ⟨p, call⟩ := x
    rw [hcall] at hcrash
    have hp : (aliceCall (fourMasks 490)).map Prod.fst = some 0 := by decide +kernel
    obtain rfl : p = 0 := by simpa [hcall] using hp
    have hgood := h _ _ _ _ _ _ _ _ _ _ hcall (by decide +kernel) rfl (by decide +kernel)
    rw [Option.map_some, hgood] at hcrash
    cases hcrash

end Bluebox.ModeLine
