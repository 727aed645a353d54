/-
  Bluebox.Channel.FinalMode

  What a client makes of the `MODE` line of `set_final_mode`
  (`modules/core/m_join.c`): it reads the letters with their arguments and
  carries out the changes, as `Bluebox.Replay` does.

  The letter table of `set_final_mode` has no `x`, which a channel can have and
  lose to a lower time stamp.
-/
import Bluebox.Channel.Notify

namespace Bluebox.FinalMode

open Bluebox.Lib Bluebox.Chan Bluebox.Notify
open Bluebox.ModeBuf (Shown)
open Bluebox.Replay (View Change view replay)

-- ============================================================================
-- Reading a line
-- ============================================================================

/-- The letters with an argument: `k` in both directions, `l` only to set it. -/
def takesArg (dir : Dir) (c : UInt8) : Bool :=
  c == 107 || (c == 108 && dir == .add) || [98, 101, 73, 111, 104, 118].contains c

/-- The changes in the letters, with the words behind them. -/
def readLetters : Dir → Bytes → List Bytes → List Change
  | _, [], _ => []
  | dir, c :: cs, args =>
    if c = 43 then readLetters .add cs args
    else if c = 45 then readLetters .del cs args
    else if takesArg dir c then ⟨c, dir, args.headD []⟩ :: readLetters dir cs args.tail
    else ⟨c, dir, []⟩ :: readLetters dir cs args

/-- The changes in a line, behind the source and the channel. -/
def readLine (start line : Bytes) : List Change :=
  match (line.drop start.length).splitOn 32 with
  | [] => []
  | cs :: args => readLetters .add cs args

/-- `:source MODE channel `. -/
def lineStart (source chname : Bytes) : Bytes :=
  58 :: source ++ [32, 77, 79, 68, 69, 32] ++ chname ++ [32]

/-- The line of `set_final_mode`, if it sends one. -/
def finalLine (source chname : Bytes) (mode oldmode : Mode) : Option Bytes :=
  let changes := finalChanges mode oldmode
  if changes = [] then none
  else some (lineStart source chname ++ (signs .query changes ++
    if params changes = [] then [] else 32 :: (params changes).dropLast))

theorem setFinalMode_eq (net : Net) (source : Bytes) (ch : Channel) (mode oldmode : Mode) :
    net.setFinalMode source ch mode oldmode =
      (finalLine source ch.chname mode oldmode).elim [] (net.toChannel ch .allMembers) := by
  unfold Net.setFinalMode finalLine
  dsimp only
  by_cases hnil : finalChanges mode oldmode = []
  · rw [if_pos hnil, if_pos hnil]
    rfl
  · rw [if_neg hnil, if_neg hnil, Option.elim_some]
    by_cases hargs : params (finalChanges mode oldmode) = []
    · rw [if_pos hargs, if_pos hargs]
      simp [lineStart]
    · rw [if_neg hargs, if_neg hargs]
      simp [lineStart]

/-- A client that is sent the line, or none. -/
def heard (who : Bytes → Option Nat) (source chname : Bytes) (line : Option Bytes) (v : View) : View :=
  line.elim v fun text => replay who (readLine (lineStart source chname) text) v

-- ============================================================================
-- The words of a line
-- ============================================================================

/-- A change that can be read back. -/
structure Readable (m : Shown) : Prop where
  dir : m.dir ≠ .query
  letter : m.letter ≠ 43 ∧ m.letter ≠ 45 ∧ m.letter ≠ 32
  takes : m.arg.isSome = takesArg m.dir m.letter
  noSpace : ∀ a ∈ m.arg, (32 : UInt8) ∉ a

/-- The change a client should read. -/
def change (m : Shown) : Change := ⟨m.letter, m.dir, m.arg.getD []⟩

/-- The arguments of changes. -/
def argWords (l : List Shown) : List Bytes := l.filterMap Shown.arg

theorem params_eq (l : List Shown) : params l = (argWords l).flatMap (· ++ [32]) := by
  induction l with
  | nil => rfl
  | cons m l ih =>
    unfold params argWords at ih ⊢
    cases harg : m.arg with
    | none => rw [List.flatMap_cons, List.filterMap_cons_none harg, ih, harg]; rfl
    | some a => rw [List.flatMap_cons, List.filterMap_cons_some harg, List.flatMap_cons, ih, harg]; rfl

/-- Words with a space in front of each split into these words again. -/
theorem splitOn_words (ws : List Bytes) : ∀ w : Bytes, (32 : UInt8) ∉ w → (∀ x ∈ ws, (32 : UInt8) ∉ x) →
    (w ++ ws.flatMap (32 :: ·)).splitOn 32 = w :: ws := by
  induction ws with
  | nil =>
    intro w hw _
    rw [List.flatMap_nil, List.append_nil]
    exact List.splitOn_eq_singleton hw
  | cons x ws ih =>
    intro w hw hws
    rw [List.flatMap_cons, List.cons_append, List.splitOn_append_cons_self_of_not_mem hw,
      ih x (hws x List.mem_cons_self) fun y hy => hws y (List.mem_cons_of_mem _ hy)]

/-- The space behind the last word is cut off, and one stands in front of the first. -/
theorem blank_dropLast (ws : List Bytes) :
    (if ws.flatMap (· ++ [32]) = [] then [] else 32 :: (ws.flatMap (· ++ [32])).dropLast) =
      ws.flatMap (32 :: ·) := by
  induction ws with
  | nil => rfl
  | cons w ws ih =>
    rw [List.flatMap_cons, List.flatMap_cons, if_neg (by simp), ← ih, List.cons_append, List.cons_inj_right]
    by_cases hnil : ws.flatMap (· ++ [32]) = []
    · rw [if_pos hnil, hnil, List.append_nil, List.append_nil, List.dropLast_concat]
    · rw [if_neg hnil, List.dropLast_append_of_ne_nil hnil, List.append_assoc]
      rfl

theorem signs_noSpace (l : List Shown) (h : ∀ m ∈ l, m.letter ≠ 32) : ∀ dir, (32 : UInt8) ∉ signs dir l := by
  induction l with
  | nil => exact fun _ => List.not_mem_nil
  | cons m l ih =>
    intro dir hmem
    rw [signs, List.mem_append] at hmem
    rcases hmem with hmem | hmem
    · have hletter := h m List.mem_cons_self
      split at hmem
      · exact hletter (List.mem_singleton.mp hmem).symm
      · rcases List.mem_cons.mp hmem with hmem | hmem
        · split at hmem <;> exact absurd hmem (by decide)
        · exact hletter (List.mem_singleton.mp hmem).symm
    · exact ih (fun x hx => h x (List.mem_cons_of_mem _ hx)) m.dir hmem

/-- One letter, with its argument if it has one. -/
theorem readLetters_letter {m : Shown} (h : Readable m) (cs : Bytes) (l : List Shown) :
    readLetters m.dir (m.letter :: cs) (argWords (m :: l)) =
      change m :: readLetters m.dir cs (argWords l) := by
  have htakes := h.takes
  rw [readLetters, if_neg h.letter.1, if_neg h.letter.2.1, ← htakes]
  unfold argWords change
  cases harg : m.arg with
  | none => rw [List.filterMap_cons_none harg]; rfl
  | some a => rw [List.filterMap_cons_some harg]; rfl

/-- The signs and letters of changes are read as these changes, by whatever takes a sign as the direction of what
    follows and a letter as one change. -/
theorem read_signs {β : Type} {read : Dir → Bytes → List Bytes → List β} {g : Shown → β} {ok : Shown → Prop}
    (hnil : ∀ dir, read dir [] [] = []) (hplus : ∀ dir cs args, read dir (43 :: cs) args = read .add cs args)
    (hminus : ∀ dir cs args, read dir (45 :: cs) args = read .del cs args)
    (hletter : ∀ m cs l, ok m → read m.dir (m.letter :: cs) (argWords (m :: l)) = g m :: read m.dir cs (argWords l))
    (hquery : ∀ m, ok m → m.dir ≠ .query) (l : List Shown) : ∀ dir dir' : Dir, dir' = dir ∨ dir' = .query →
      (∀ m ∈ l, ok m) → read dir (signs dir' l) (argWords l) = l.map g := by
  induction l with
  | nil => exact fun dir _ _ _ => hnil dir
  | cons m l ih =>
    intro dir dir' hdir h
    have hm := h m List.mem_cons_self
    have hrest := ih m.dir m.dir (Or.inl rfl) fun x hx => h x (List.mem_cons_of_mem _ hx)
    rw [List.map_cons, ← hrest, ← hletter m _ l hm, signs]
    by_cases hsame : dir' = m.dir
    · have hd : dir = m.dir := by
        rcases hdir with rfl | hq
        · exact hsame
        · exact absurd (hsame.symm.trans hq) (hquery m hm)
      rw [if_pos hsame, hd]
      rfl
    · rw [if_neg hsame]
      cases hmdir : m.dir with
      | add => exact hplus dir _ _
      | del => exact hminus dir _ _
      | query => exact absurd hmdir (hquery m hm)

theorem readLetters_signs (l : List Shown) : ∀ dir dir' : Dir, dir' = dir ∨ dir' = .query →
    (∀ m ∈ l, Readable m) → readLetters dir (signs dir' l) (argWords l) = l.map change :=
  read_signs (fun _ => rfl) (fun _ _ _ => rfl) (fun _ _ _ => rfl) (fun _ cs l hm => readLetters_letter hm cs l)
    (fun _ hm => hm.dir) l

/-- Nothing is lost between the changes and the client. -/
theorem readLine_changes {l : List Shown} (h : ∀ m ∈ l, Readable m) (start : Bytes) :
    readLine start (start ++ (signs .query l ++ if params l = [] then [] else 32 :: (params l).dropLast)) =
      l.map change := by
  have hargs : ∀ a ∈ argWords l, (32 : UInt8) ∉ a := by
    intro a ha
    obtain ⟨m, hm, harg⟩ := List.mem_filterMap.mp ha
    exact (h m hm).noSpace a harg
  unfold readLine
  rw [List.drop_left, params_eq, blank_dropLast, splitOn_words _ _ (signs_noSpace l (fun m hm => (h m hm).letter.2.2) _) hargs]
  exact readLetters_signs l .add .query (Or.inr rfl) h

-- ============================================================================
-- Bits
-- ============================================================================

/-- The bits of some flags. -/
def bitsOf (l : List (UInt32 × UInt8)) : UInt32 := l.foldr (fun f w => f.1 ||| w) 0

theorem and_bit_ne_zero {b : UInt32} {i : Nat} (hi : i < 32) (hb : b.toBitVec = BitVec.twoPow 32 i)
    (x : UInt32) : (x &&& b != 0) = x.toBitVec.getLsbD i := by
  have hand : (x &&& b).toBitVec = if x.toBitVec.getLsbD i then BitVec.twoPow 32 i else 0 := by
    rw [UInt32.toBitVec_and, hb, BitVec.and_twoPow]
    rfl
  rw [Bool.eq_iff_iff, bne_iff_ne, ne_eq, ← UInt32.toBitVec_inj, hand]
  cases x.toBitVec.getLsbD i with
  | true =>
    simp only [if_true, iff_true]
    intro h
    have := congrArg (fun v => BitVec.getLsbD v i) h
    simp [hi] at this
  | false => simp

theorem modeFlags_bit : ∀ f ∈ modeFlags, ∃ i < 32, f.1.toBitVec = BitVec.twoPow 32 i := by
  intro f hf
  have hall : (modeFlags.all fun f => (List.range 32).any fun i =>
      f.1.toBitVec == BitVec.twoPow 32 i) = true := by decide
  obtain ⟨i, hi, h⟩ := List.any_eq_true.mp (List.all_eq_true.mp hall f hf)
  exact ⟨i, List.mem_range.mp hi, beq_iff_eq.mp h⟩

theorem filter_modeFlags (x y : UInt32) :
    (modeFlags.filter fun f => x &&& f.1 != 0 && y &&& f.1 == 0) =
      modeFlags.filter fun f => (x &&& ~~~y) &&& f.1 != 0 := by
  refine List.filter_congr fun f hf => ?_
  obtain ⟨i, hi, hb⟩ := modeFlags_bit f hf
  have hzero : (y &&& f.1 == 0) = !(y &&& f.1 != 0) := by simp [bne]
  rw [hzero, and_bit_ne_zero hi hb, and_bit_ne_zero hi hb, and_bit_ne_zero hi hb, UInt32.toBitVec_and,
    UInt32.toBitVec_not, BitVec.getLsbD_and, BitVec.getLsbD_not, decide_eq_true hi, Bool.true_and]

theorem bitsOf_filter (x : UInt32) (l : List (UInt32 × UInt8)) (hl : ∀ f ∈ l, x &&& f.1 = 0 ∨ x &&& f.1 = f.1) :
    bitsOf (l.filter fun f => x &&& f.1 != 0) = x &&& bitsOf l := by
  induction l with
  | nil => exact UInt32.and_zero.symm
  | cons f l ih =>
    have hand : x &&& bitsOf (f :: l) = x &&& f.1 ||| x &&& bitsOf l := by
      rw [← UInt32.toBitVec_inj]
      exact BitVec.and_or_distrib_left
    rw [hand, ← ih fun g hg => hl g (List.mem_cons_of_mem _ hg), List.filter_cons]
    rcases hl f List.mem_cons_self with hf | hf
    · rw [if_neg (by simp [hf]), hf, UInt32.zero_or]
    · split
      · rw [hf]
        rfl
      · rename_i hset
        rw [show x &&& f.1 = 0 by simpa using hset, UInt32.zero_or]

/-- The flags are eight bits. -/
theorem bitsOf_modeFlags (x : UInt32) : bitsOf (modeFlags.filter fun f => x &&& f.1 != 0) = x &&& 0xff := by
  refine bitsOf_filter x modeFlags fun f hf => ?_
  obtain ⟨i, -, hb⟩ := modeFlags_bit f hf
  exact and_twoPow x hb

/-- Setting what is new and clearing what is gone takes over the bits of a mask. -/
theorem merge_bits (o n m : UInt32) :
    (o ||| (n &&& ~~~o &&& m)) &&& ~~~(o &&& ~~~n &&& m) = (o &&& ~~~m) ||| (n &&& m) := by
  rw [← UInt32.toBitVec_inj]
  simp only [UInt32.toBitVec_and, UInt32.toBitVec_or, UInt32.toBitVec_not]
  ext i hi
  simp only [BitVec.getElem_and, BitVec.getElem_or, BitVec.getElem_not]
  cases o.toBitVec[i] <;> cases n.toBitVec[i] <;> cases m.toBitVec[i] <;> rfl

/-- Only the bits outside the mask can differ then. -/
theorem merge_eq_iff (o n m : UInt32) : (o &&& ~~~m) ||| (n &&& m) = n ↔ o &&& ~~~m = n &&& ~~~m := by
  constructor
  · intro h
    have hkeep : ((o &&& ~~~m) ||| (n &&& m)) &&& ~~~m = o &&& ~~~m := by
      rw [← UInt32.toBitVec_inj]
      simp only [UInt32.toBitVec_and, UInt32.toBitVec_or, UInt32.toBitVec_not]
      ext i hi
      simp only [BitVec.getElem_and, BitVec.getElem_or, BitVec.getElem_not]
      cases o.toBitVec[i] <;> cases n.toBitVec[i] <;> cases m.toBitVec[i] <;> rfl
    rw [← hkeep, h]
  · intro h
    rw [h, ← UInt32.toBitVec_inj]
    simp only [UInt32.toBitVec_and, UInt32.toBitVec_or, UInt32.toBitVec_not]
    ext i hi
    simp only [BitVec.getElem_and, BitVec.getElem_or, BitVec.getElem_not]
    cases n.toBitVec[i] <;> cases m.toBitVec[i] <;> rfl

/-- Of nine bits the one outside the letter table is `x`. -/
theorem and_not_mask {x : UInt32} (h : x.toNat < 2 ^ 9) : x &&& ~~~0xff = x &&& modeSpamplease := by
  have hall : ∀ y : Fin 512, UInt32.ofNat y.val &&& ~~~0xff = UInt32.ofNat y.val &&& modeSpamplease := by
    decide +kernel
  have hx := hall ⟨x.toNat, h⟩
  rwa [UInt32.ofNat_toNat] at hx

-- ============================================================================
-- Carrying out the changes
-- ============================================================================

section Final

variable {who : Bytes → Option Nat} {mode oldmode : Mode}

/-- A letter of the table changes its bit. -/
theorem apply_flag (v : View) (dir : Dir) : ∀ f ∈ modeFlags,
    v.apply who ⟨f.2, dir, []⟩ = v.setMode ⟨f.2, dir, []⟩ f.1 := by
  intro f hf
  simp only [modeFlags, List.mem_cons, List.not_mem_nil, or_false] at hf
  rcases hf with rfl | rfl | rfl | rfl | rfl | rfl | rfl | rfl <;> rfl

theorem replay_add (l : List (UInt32 × UInt8)) : ∀ v : View, l ⊆ modeFlags →
    replay who (l.map fun f => ⟨f.2, .add, []⟩) v = { v with mode := v.mode ||| bitsOf l } := by
  induction l with
  | nil =>
    intro v _
    show v = { v with mode := v.mode ||| 0 }
    rw [UInt32.or_zero]
  | cons f l ih =>
    intro v hl
    have hstep := @apply_flag who v .add f (hl List.mem_cons_self)
    show replay who (l.map fun f => ⟨f.2, .add, []⟩) (v.apply who ⟨f.2, .add, []⟩) = _
    rw [hstep, ih _ fun x hx => hl (List.mem_cons_of_mem _ hx)]
    show { v with mode := v.mode ||| f.1 ||| bitsOf l } = { v with mode := v.mode ||| (f.1 ||| bitsOf l) }
    rw [UInt32.or_assoc]

theorem replay_del (l : List (UInt32 × UInt8)) : ∀ v : View, l ⊆ modeFlags →
    replay who (l.map fun f => ⟨f.2, .del, []⟩) v = { v with mode := v.mode &&& ~~~bitsOf l } := by
  induction l with
  | nil =>
    intro v _
    show v = { v with mode := v.mode &&& ~~~0 }
    rw [show ~~~(0 : UInt32) = -1 from rfl, UInt32.and_neg_one]
  | cons f l ih =>
    intro v hl
    have hstep := @apply_flag who v .del f (hl List.mem_cons_self)
    show replay who (l.map fun f => ⟨f.2, .del, []⟩) (v.apply who ⟨f.2, .del, []⟩) = _
    rw [hstep, ih _ fun x hx => hl (List.mem_cons_of_mem _ hx)]
    show { v with mode := v.mode &&& ~~~f.1 &&& ~~~bitsOf l } =
      { v with mode := v.mode &&& ~~~(f.1 ||| bitsOf l) }
    have hnot : ~~~(f.1 ||| bitsOf l) = ~~~f.1 &&& ~~~bitsOf l := by
      rw [← UInt32.toBitVec_inj]
      simp only [UInt32.toBitVec_and, UInt32.toBitVec_or, UInt32.toBitVec_not, BitVec.not_or]
    rw [hnot, UInt32.and_assoc]

theorem replay_append (l l' : List Change) (v : View) :
    replay who (l ++ l') v = replay who l' (replay who l v) := List.foldl_append

/-- A change of the limit, if there is one. -/
theorem replay_limit {P : Prop} [Decidable P] (dir : Dir) (arg : Option Bytes) (v : View) :
    replay who ((if P then [(⟨108, dir, arg⟩ : Shown)] else []).map change) v =
      { v with limit := if P then (if dir = .add then atoi (arg.getD []) else 0) else v.limit } := by
  split <;> rfl

/-- A change of the key, if there is one. -/
theorem replay_key {P : Prop} [Decidable P] (dir : Dir) (arg : Option Bytes) (v : View) :
    replay who ((if P then [(⟨107, dir, arg⟩ : Shown)] else []).map change) v =
      { v with key := if P then (if dir = .add then arg.getD [] else []) else v.key } := by
  split <;> rfl

/-- What the changes make of the old modes: eight bits, the limit and the key are those of
    the new ones. -/
theorem replay_finalChanges (hm : mode.Valid) {v : View} (hmode : v.mode = oldmode.mode)
    (hlimit : v.limit = oldmode.limit) (hkey : v.key = oldmode.key) :
    replay who ((finalChanges mode oldmode).map change) v =
      { v with
        mode := (oldmode.mode &&& ~~~0xff) ||| (mode.mode &&& 0xff)
        limit := mode.limit
        key := mode.key } := by
  have hadd : ∀ x y : UInt32,
      bitsOf (modeFlags.filter fun f => x &&& f.1 != 0 && y &&& f.1 == 0) = x &&& ~~~y &&& 0xff :=
    fun x y => by rw [filter_modeFlags, bitsOf_modeFlags]
  have hmap : ∀ (l : List (UInt32 × UInt8)) (dir : Dir),
      (l.map fun f => (⟨f.2, dir, none⟩ : Shown)).map change = l.map fun f => ⟨f.2, dir, []⟩ :=
    fun l dir => List.map_map
  unfold finalChanges
  rw [List.map_append, List.map_append, List.map_append, List.map_append, List.map_append, hmap, hmap,
    replay_append, replay_append, replay_append, replay_append, replay_append,
    replay_add _ _ List.filter_sublist.subset, replay_del _ _ List.filter_sublist.subset,
    replay_limit, replay_key, replay_limit, replay_key, hadd mode.mode oldmode.mode, hadd oldmode.mode mode.mode,
    hmode, merge_bits]
  refine View.ext rfl ?_ ?_ rfl rfl
  · show (if mode.limit ≠ 0 ∧ oldmode.limit ≠ mode.limit then atoi (fmtInt mode.limit)
      else if oldmode.limit ≠ 0 ∧ mode.limit = 0 then 0 else v.limit) = mode.limit
    rw [hlimit, atoi_fmtInt hm.limit]
    split
    · rfl
    · split
      · omega
      · omega
  · show (if mode.key ≠ [] ∧ oldmode.key ≠ mode.key then mode.key
      else if oldmode.key ≠ [] ∧ mode.key = [] then [] else v.key) = mode.key
    rw [hkey]
    by_cases hnil : mode.key = []
    · by_cases hold : oldmode.key = []
      · simp [hnil, hold]
      · simp [hnil, hold]
    · by_cases hsame : oldmode.key = mode.key
      · simp [hsame]
      · simp [hnil, hsame]

theorem finalChanges_readable (hm : mode.Valid) (ho : oldmode.Valid) :
    ∀ m ∈ finalChanges mode oldmode, Readable m := by
  have hflag : ∀ f ∈ modeFlags, ∀ dir : Dir, dir ≠ .query → Readable ⟨f.2, dir, none⟩ := by
    intro f hf dir hdir
    have hall : (modeFlags.all fun f => decide ((f.2 ≠ 43 ∧ f.2 ≠ 45 ∧ f.2 ≠ 32) ∧
        takesArg .add f.2 = false ∧ takesArg .del f.2 = false)) = true := by decide
    obtain ⟨hletter, hadd, hdel⟩ := of_decide_eq_true (List.all_eq_true.mp hall f hf)
    refine ⟨hdir, hletter, ?_, fun a ha => by cases ha⟩
    cases dir with
    | add => exact hadd.symm
    | del => exact hdel.symm
    | query => exact absurd rfl hdir
  have harg : ∀ (c : UInt8) (dir : Dir) (a : Bytes), c = 107 ∨ c = 108 ∧ dir = .add → dir ≠ .query →
      (32 : UInt8) ∉ a → Readable ⟨c, dir, some a⟩ := by
    rintro c dir a (rfl | ⟨rfl, rfl⟩) hdir ha
    · exact ⟨hdir, (by decide : (107 : UInt8) ≠ 43 ∧ (107 : UInt8) ≠ 45 ∧ (107 : UInt8) ≠ 32), rfl,
        fun b hb => by rw [← Option.some.inj hb]; exact ha⟩
    · exact ⟨hdir, (by decide : (108 : UInt8) ≠ 43 ∧ (108 : UInt8) ≠ 45 ∧ (108 : UInt8) ≠ 32), rfl,
        fun b hb => by rw [← Option.some.inj hb]; exact ha⟩
  intro m hmem
  simp only [finalChanges, List.mem_append, List.mem_map] at hmem
  rcases hmem with ((((⟨f, hf, rfl⟩ | ⟨f, hf, rfl⟩) | hmem) | hmem) | hmem) | hmem
  · exact hflag f (List.mem_of_mem_filter hf) .add (by decide)
  · exact hflag f (List.mem_of_mem_filter hf) .del (by decide)
  · split at hmem
    · rw [List.mem_singleton.mp hmem]
      exact ⟨by decide, by decide, rfl, fun a ha => by cases ha⟩
    · exact absurd hmem List.not_mem_nil
  · split at hmem
    · rw [List.mem_singleton.mp hmem]
      exact harg 107 .del _ (Or.inl rfl) (by decide) ho.noSpace
    · exact absurd hmem List.not_mem_nil
  · split at hmem
    · rw [List.mem_singleton.mp hmem]
      exact harg 108 .add _ (Or.inr ⟨rfl, rfl⟩) (by decide) (fmtInt_noSpace _)
    · exact absurd hmem List.not_mem_nil
  · split at hmem
    · rw [List.mem_singleton.mp hmem]
      exact harg 107 .add _ (Or.inl rfl) (by decide) hm.noSpace
    · exact absurd hmem List.not_mem_nil

/-- What a client makes of the line of `set_final_mode`. -/
theorem heard_finalLine (hm : mode.Valid) (ho : oldmode.Valid) (source chname : Bytes) {v : View}
    (hmode : v.mode = oldmode.mode) (hlimit : v.limit = oldmode.limit) (hkey : v.key = oldmode.key) :
    heard who source chname (finalLine source chname mode oldmode) v =
      { v with
        mode := (oldmode.mode &&& ~~~0xff) ||| (mode.mode &&& 0xff)
        limit := mode.limit
        key := mode.key } := by
  have hreplay := @replay_finalChanges who mode oldmode hm v hmode hlimit hkey
  unfold heard finalLine
  dsimp only
  by_cases hnil : finalChanges mode oldmode = []
  · rw [if_pos hnil, ← hreplay, hnil]
    rfl
  · rw [if_neg hnil, Option.elim_some, readLine_changes (finalChanges_readable hm ho), hreplay]

end Final

-- ============================================================================
-- The calls of set_final_mode
-- ============================================================================

/-- The modes `ms_sjoin`, `ms_join` and `mc_sjoin` pass on: the channel with its old modes, and
    the new ones. -/
inductive Passed (srv : Server) (now : Int) : Channel → Mode → Prop
  | sjoin {m : Sjoin} {mode : Mode} {users : Bytes} {t : Table} {p : Nat} {isnew : Bool}
      (hwf : m.wellFormed = true) (hparse : sjoinParse m = some (mode, users))
      (hget : getOrCreateChannel srv.table m.name now = (t, some (p, isnew))) :
      Passed srv now (t.chan p)
        (sjoinMode (tsCompare isnew (t.chan p).channelts (atol m.ts)) mode (t.chan p).mode)
  | join {name ts : Bytes} {p : Nat} {isnew : Bool} {ch : Channel}
      (henters : msJoinEnters srv name now = some (p, isnew, ch))
      (hlost : (tsCompare isnew ch.channelts (atol ts)).keepOurModes = false) :
      Passed srv now ch Mode.none

section Calls

variable {cfg : Config} {srv : Server}

/-- A channel that is looked for or made has valid modes. -/
theorem valid_getOrCreate (hrun : Reach (Server.step cfg) anyStep Server.start srv) {name : Bytes}
    {now : Int} {t : Table} {p : Nat} {isnew : Bool}
    (hget : getOrCreateChannel srv.table name now = (t, some (p, isnew))) : (t.chan p).mode.Valid := by
  have hall : ∀ q, (srv.table.chan q).mode.Valid :=
    (Server.reachable_of_run hrun).forall_chan (P := fun ch => ch.mode.Valid)
      (fun _ _ _ => Mode.valid_none) (fun _ _ _ hu => hu.modeValid)
  obtain ⟨-, -, rfl⟩ | ⟨-, -, rfl, rfl⟩ := getOrCreateChannel_some hget
  · exact hall p
  · rw [Table.chan_add]
    exact Mode.valid_none

theorem Passed.valid (hrun : Reach (Server.step cfg) anyStep Server.start srv) {now : Int}
    {ch : Channel} {mode : Mode} (h : Passed srv now ch mode) : mode.Valid ∧ ch.mode.Valid := by
  cases h with
  | sjoin hwf hparse hget =>
    have hold := valid_getOrCreate hrun hget
    exact ⟨sjoinMode_valid (sjoinParse_valid hwf hparse).1 hold, hold⟩
  | join henters hlost =>
    unfold msJoinEnters at henters
    split at henters
    · cases henters
    · split at henters
      · cases henters
      · rename_i t p isnew heq
        cases henters
        exact ⟨Mode.valid_none, valid_getOrCreate hrun heq⟩

/-- `set_final_mode` sends one line or none, and a client that carries it out has the new modes
    exactly when `x` did not change. -/
theorem setFinalMode_exact_iff {net : Net} (hrun : Reach (Server.step cfg) anyStep Server.start net.srv)
    {now : Int} {ch : Channel} {mode : Mode} (h : Passed net.srv now ch mode)
    (who : Bytes → Option Nat) (source : Bytes) :
    net.setFinalMode source ch mode ch.mode =
        (finalLine source ch.chname mode ch.mode).elim [] (net.toChannel ch .allMembers) ∧
      (heard who source ch.chname (finalLine source ch.chname mode ch.mode) (view ch) =
          view { ch with mode := mode } ↔
        ch.mode.mode &&& modeSpamplease = mode.mode &&& modeSpamplease) := by
  obtain ⟨hm, ho⟩ := h.valid hrun
  refine ⟨setFinalMode_eq net source ch mode ch.mode, ?_⟩
  rw [heard_finalLine hm ho source ch.chname rfl rfl rfl, ← and_not_mask hm.bits, ← and_not_mask ho.bits,
    ← merge_eq_iff]
  constructor
  · exact fun heq => congrArg View.mode heq
  · intro heq
    rw [heq]
    rfl

end Calls

-- ============================================================================
-- A channel that loses its modes
-- ============================================================================

/-- The state around the server of `alice`, who set modes in `#a`. -/
def aliceNet (parv : List Bytes) : Net where
  srv := aliceServer parv
  me := [109]
  servptr := fun _ => [104]
  watching := fun _ => []
  channel := fun _ => [0]
  ioError := fun _ => false

/-- The channel `#a` there, which a remote user joins with the time stamp 5. -/
def aliceChannel (parv : List Bytes) : Channel := (aliceServer parv).table.chan 0

theorem passed_alice {parv : List Bytes}
    (hfind : (aliceServer parv).table.lookup [35, 97] = some 0)
    (hts : (aliceChannel parv).channelts = 10) :
    Passed (aliceNet parv).srv 20 (aliceChannel parv) Mode.none := by
  have hget : getOrCreateChannel (aliceServer parv).table [35, 97] 20 =
      ((aliceServer parv).table, some (0, false)) :=
    getOrCreateChannel_found (by decide) hfind 20
  have henters : msJoinEnters (aliceServer parv) [35, 97] 20 = some (0, false, aliceChannel parv) := by
    unfold msJoinEnters
    rw [if_neg (by decide), hget]
    rfl
  refine @Passed.join _ _ [35, 97] [53] 0 false _ henters ?_
  rw [hts]
  decide

/-- The members of `#a` with `+ntlk 5 k` are told all of what it loses. -/
theorem setFinalMode_exact_of_limit_key :
    finalLine [104] [35, 97] Mode.none (aliceChannel [[43, 108, 107], [53], [107]]).mode =
        some (lineStart [104] [35, 97] ++ [45, 110, 116, 108, 107, 32, 107]) ∧
      heard (fun _ => none) [104] [35, 97]
          (finalLine [104] [35, 97] Mode.none (aliceChannel [[43, 108, 107], [53], [107]]).mode)
          (view (aliceChannel [[43, 108, 107], [53], [107]])) =
        view { aliceChannel [[43, 108, 107], [53], [107]] with mode := Mode.none } := by
  refine ⟨by decide, ?_⟩
  have hpassed : Passed (aliceNet [[43, 108, 107], [53], [107]]).srv 20
      (aliceChannel [[43, 108, 107], [53], [107]]) Mode.none :=
    passed_alice (by decide) (by decide)
  exact (@setFinalMode_exact_iff plainConfig (aliceNet _) (aliceServer_reach _) 20 _ _ hpassed
    (fun _ => none) [104]).2.mpr (by decide)

/-- Those of `#a` with `+ntx` are not told that `x` is gone. -/
theorem not_setFinalMode_exact :
    ¬ ∀ (net : Net) (now : Int) (ch : Channel) (mode : Mode) (who : Bytes → Option Nat) (source : Bytes),
      Reach (Server.step plainConfig) anyStep Server.start net.srv → Passed net.srv now ch mode →
      heard who source ch.chname (finalLine source ch.chname mode ch.mode) (view ch) =
        view { ch with mode := mode } := by
  intro h
  have hpassed : Passed (aliceNet [[43, 120]]).srv 20 (aliceChannel [[43, 120]]) Mode.none :=
    passed_alice (by decide) (by decide)
  have hmode := congrArg View.mode
    (h _ 20 _ _ (fun _ => none) [104] (aliceServer_reach [[43, 120]]) hpassed)
  revert hmode
  decide

end Bluebox.FinalMode
