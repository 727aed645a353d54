/-
  Bluebox.Channel.Burst

  The modes of a channel as text: `channel_modes` (`libratboxcore/channel.c`)
  writes them for a burst, the letters of an `SJOIN` read them back.

  The two letter tables differ in one letter: `x` is written and not read.
-/
import Bluebox.Channel.Merge

namespace Bluebox.Chan

open Bluebox.Lib

-- ============================================================================
-- channel_modes
-- ============================================================================

/-- The letters of `channel_modes`, in its order. -/
def modeLetters : List (UInt32 × UInt8) :=
  [(modeSecret, 115), (modePrivate, 112), (modeModerated, 109), (modeTopiclimit, 116),
    (modeInviteonly, 105), (modeNoprivmsgs, 110), (modeRegonly, 114), (modeSslonly, 83),
    (modeSpamplease, 120)]

/-- The letters of a mode word. -/
def simpleLetters (mode : UInt32) : Bytes :=
  43 :: (modeLetters.filter fun x => mode &&& x.1 != 0).map (·.2)

/-- `channel_modes`; only a member, a remote client or the server itself is shown
    the limit and the key. -/
def channelModes (m : Mode) (shown : Bool) : Bytes :=
  simpleLetters m.mode ++
    if m.limit ≠ 0 ∧ m.key ≠ [] then
      [108, 107] ++ if shown then 32 :: fmtInt m.limit ++ 32 :: m.key else []
    else if m.limit ≠ 0 then [108] ++ if shown then 32 :: fmtInt m.limit else []
    else if m.key ≠ [] then [107] ++ if shown then 32 :: m.key else []
    else []

/-- The letters and the arguments of `channel_modes`, split at spaces. -/
def burstWords (m : Mode) : List Bytes := (channelModes m true).splitOn 32

/-- The `SJOIN` that carries a channel to another server. -/
def burstSjoin (ch : Channel) (link : Nat) (sourceId users : Bytes) : Sjoin where
  link := link
  sourceId := sourceId
  ts := fmtInt ch.channelts
  name := ch.chname
  modes := (burstWords ch.mode).headD []
  params := (burstWords ch.mode).tail ++ [users]

-- ============================================================================
-- Splitting
-- ============================================================================

/-- The letters in front of the arguments. -/
def burstLetters (m : Mode) : Bytes :=
  simpleLetters m.mode ++ (if m.limit ≠ 0 then [108] else []) ++ if m.key ≠ [] then [107] else []

/-- The arguments, the limit first. -/
def burstArgs (m : Mode) : List Bytes :=
  (if m.limit ≠ 0 then [fmtInt m.limit] else []) ++ if m.key ≠ [] then [m.key] else []

theorem simpleLetters_noSpace (mode : UInt32) : (32 : UInt8) ∉ simpleLetters mode := by
  intro h
  rcases List.mem_cons.mp h with h | h
  · exact absurd h (by decide)
  · obtain ⟨x, hx, heq⟩ := List.mem_map.mp h
    have hall : modeLetters.all (fun y => y.2 != 32) = true := by decide
    have hne := List.all_eq_true.mp hall x (List.mem_of_mem_filter hx)
    exact bne_iff_ne.mp hne heq

theorem fmtInt_digits {n : Int} {b : UInt8} (h : b ∈ fmtInt n) : b = 45 ∨ isDigit b = true := by
  unfold fmtInt at h
  split at h
  · rcases List.mem_cons.mp h with h | h
    · exact Or.inl h
    · exact Or.inr (decDigits_isDigit _ _ b h)
  · exact Or.inr (decDigits_isDigit _ _ b h)

theorem fmtInt_noSpace (n : Int) : (32 : UInt8) ∉ fmtInt n := fun h =>
  (fmtInt_digits h).elim (fun h => absurd h (by decide)) (fun h => absurd h (by decide))

theorem fmtInt_noNul (n : Int) : NoNul (fmtInt n) := fun h =>
  (fmtInt_digits h).elim (fun h => absurd h (by decide)) (fun h => absurd h (by decide))

theorem fmtInt_ne_nil (n : Int) : fmtInt n ≠ [] := by
  unfold fmtInt
  split
  · exact List.cons_ne_nil _ _
  · exact decDigits_ne_nil _ _

/-- The text splits into the letters and their arguments. -/
theorem burstWords_eq {m : Mode} (hv : m.Valid) :
    burstWords m = burstLetters m :: burstArgs m := by
  have hs := simpleLetters_noSpace m.mode
  have hl := fmtInt_noSpace m.limit
  have hsl : (32 : UInt8) ∉ simpleLetters m.mode ++ [108] := by simp [hs]
  have hsk : (32 : UInt8) ∉ simpleLetters m.mode ++ [107] := by simp [hs]
  have hslk : (32 : UInt8) ∉ simpleLetters m.mode ++ [108, 107] := by simp [hs]
  unfold burstWords channelModes burstLetters burstArgs
  by_cases hlimit : m.limit = 0
  · by_cases hkey : m.key = []
    · simp only [hlimit, hkey, ne_eq, not_true_eq_false, false_and, if_false, List.append_nil]
      exact List.splitOn_eq_singleton hs
    · simp only [hlimit, hkey, ne_eq, not_true_eq_false, not_false_eq_true, false_and, if_false,
        if_true, List.append_nil, List.nil_append]
      rw [← List.append_assoc, List.splitOn_append_cons_self_of_not_mem hsk,
        List.splitOn_eq_singleton hv.noSpace]
  · by_cases hkey : m.key = []
    · simp only [hlimit, hkey, ne_eq, not_true_eq_false, not_false_eq_true, and_false, if_false,
        if_true, List.append_nil]
      rw [← List.append_assoc, List.splitOn_append_cons_self_of_not_mem hsl,
        List.splitOn_eq_singleton hl]
    · simp only [hlimit, hkey, ne_eq, not_false_eq_true, and_self, if_true]
      rw [← List.append_assoc, List.cons_append, List.splitOn_append_cons_self_of_not_mem hslk,
        List.splitOn_append_cons_self_of_not_mem hl, List.splitOn_eq_singleton hv.noSpace]
      simp

-- ============================================================================
-- Reading it back
-- ============================================================================

/-- Letters without argument only set bits. -/
theorem sjoinModes_simple {params : List Bytes} (l rest : Bytes)
    (hl : ∀ c ∈ l, c ≠ 107 ∧ c ≠ 108) : ∀ (mode : Mode) (args : Nat),
    sjoinModes params (l ++ rest) mode args
      = sjoinModes params rest
          { mode with mode := l.foldl (fun w c => w ||| sjoinBit c) mode.mode } args := by
  induction l with
  | nil => exact fun _ _ => rfl
  | cons c l ih =>
    intro mode args
    obtain ⟨hk, hlim⟩ := hl c List.mem_cons_self
    rw [List.cons_append, sjoinModes, if_neg hk, if_neg hlim,
      ih (fun d hd => hl d (List.mem_cons_of_mem _ hd))]
    rfl

theorem simpleLetters_noArgs (mode : UInt32) :
    ∀ c ∈ simpleLetters mode, c ≠ 107 ∧ c ≠ 108 := by
  intro c h
  rcases List.mem_cons.mp h with rfl | h
  · decide
  · obtain ⟨x, hx, rfl⟩ := List.mem_map.mp h
    have hall : modeLetters.all (fun y => y.2 != 107 && y.2 != 108) = true := by decide
    have hne := List.all_eq_true.mp hall x (List.mem_of_mem_filter hx)
    rwa [Bool.and_eq_true, bne_iff_ne, bne_iff_ne] at hne

/-- The flags that are set bring the bits of the word that they stand for. -/
theorem foldl_flags (mode : UInt32) (g : UInt32 × UInt8 → UInt32) (l : List (UInt32 × UInt8))
    (hl : ∀ f ∈ l, (mode &&& f.1 = 0 ∨ mode &&& f.1 = f.1) ∧ (g f = f.1 ∨ g f = 0)) : ∀ w,
    (l.filter fun f => mode &&& f.1 != 0).foldl (fun w f => w ||| g f) (mode &&& w)
      = mode &&& l.foldl (fun w f => w ||| g f) w := by
  induction l with
  | nil => exact fun _ => rfl
  | cons f l ih =>
    intro w
    obtain ⟨hbit, hg⟩ := hl f List.mem_cons_self
    have hand : mode &&& (w ||| g f) = mode &&& w ||| mode &&& g f := by
      rw [← UInt32.toBitVec_inj]
      exact BitVec.and_or_distrib_left
    rw [List.foldl_cons, ← ih (fun x hx => hl x (List.mem_cons_of_mem _ hx)), hand, List.filter_cons]
    by_cases hset : mode &&& f.1 = 0
    · rw [if_neg (by simp [hset])]
      rcases hg with hg | hg <;> simp [hg, hset]
    · rw [if_pos (by simpa using hset), List.foldl_cons]
      rcases hg with hg | hg <;> simp [hg, hbit.resolve_left hset]

/-- A flag of one bit is set as a whole or not at all. -/
theorem and_twoPow (mode : UInt32) {b : UInt32} {i : Nat} (hb : b.toBitVec = BitVec.twoPow 32 i) :
    mode &&& b = 0 ∨ mode &&& b = b := by
  have hand : (mode &&& b).toBitVec = if mode.toBitVec.getLsbD i then b.toBitVec else 0 := by
    rw [UInt32.toBitVec_and, hb, BitVec.and_twoPow]
    rfl
  rw [← UInt32.toBitVec_inj, ← UInt32.toBitVec_inj, hand]
  split
  · exact .inr rfl
  · exact .inl rfl

theorem modeLetters_flag : ∀ f ∈ modeLetters, (∃ i, f.1.toBitVec = BitVec.twoPow 32 i) ∧
    (sjoinBit f.2 = f.1 ∨ sjoinBit f.2 = 0) := by
  intro f hf
  have hall : (modeLetters.all fun f => ((List.range 9).any fun i => f.1.toBitVec == BitVec.twoPow 32 i) &&
      (sjoinBit f.2 == f.1 || sjoinBit f.2 == 0)) = true := by decide
  have h := List.all_eq_true.mp hall f hf
  rw [Bool.and_eq_true, Bool.or_eq_true, List.any_eq_true, beq_iff_eq, beq_iff_eq] at h
  obtain ⟨⟨i, -, hi⟩, hbit⟩ := h
  exact ⟨⟨i, beq_iff_eq.mp hi⟩, hbit⟩

/-- The letters bring eight bits. -/
theorem simpleLetters_bits (mode : UInt32) :
    (simpleLetters mode).foldl (fun w c => w ||| sjoinBit c) 0 = mode &&& 0xff := by
  have hfold := foldl_flags mode (fun f => sjoinBit f.2) modeLetters
    (fun f hf => ⟨and_twoPow mode (modeLetters_flag f hf).1.choose_spec, (modeLetters_flag f hf).2⟩) 0
  rw [UInt32.and_zero] at hfold
  rw [simpleLetters, List.foldl_cons, List.foldl_map]
  exact hfold

theorem and_mask_eq_iff {mode : UInt32} (h : mode.toNat < 2 ^ 9) :
    mode &&& 0xff = mode ↔ mode &&& modeSpamplease = 0 := by
  have hall : ∀ x : Fin 512, UInt32.ofNat x.val &&& 0xff = UInt32.ofNat x.val
      ↔ UInt32.ofNat x.val &&& modeSpamplease = 0 := by
    decide +kernel
  have hx := hall ⟨mode.toNat, h⟩
  rwa [UInt32.ofNat_toNat] at hx

/-- What an `SJOIN` reads of the modes of a valid channel. -/
theorem sjoinModes_burst {m : Mode} (hv : m.Valid) (users : Bytes) :
    sjoinModes (burstArgs m ++ [users]) (burstLetters m) Mode.none 0
      = some ({ m with mode := m.mode &&& 0xff }, (burstArgs m).length) := by
  have hlimit : m.limit ≠ 0 → atoi (fmtInt m.limit) = m.limit := fun _ => atoi_fmtInt hv.limit
  have hkey : strlcpy m.key keyLen = m.key := strlcpy_of_lt hv.length_lt
  unfold burstLetters
  rw [List.append_assoc, sjoinModes_simple _ _ (simpleLetters_noArgs m.mode)]
  rw [show Mode.none.mode = 0 from rfl, simpleLetters_bits]
  unfold burstArgs
  obtain ⟨w, limit, key⟩ := m
  by_cases h0 : limit = 0
  · by_cases hk : key = []
    · simp [h0, hk, sjoinModes, Mode.none]
    · simp_all [sjoinModes, Mode.none]
  · by_cases hk : key = []
    · simp_all [sjoinModes, Mode.none]
    · simp_all [sjoinModes, Mode.none]

-- ============================================================================
-- A channel carried over
-- ============================================================================

/-- The second server has the modes of the first. -/
def BurstKept (ch : Channel) (srv : Server) (m : Sjoin) (now : Int) : Prop :=
  ∃ q, findChannel (msSjoin srv m now).table ch.chname = some q ∧
    ((msSjoin srv m now).table.chan q).mode = ch.mode

theorem sjoinTarget_nil (srv : Server) (link : Nat) : sjoinTarget srv link [] = none := rfl

section Carried

variable {ch : Channel} {link : Nat} {sourceId users : Bytes}

theorem burstSjoin_params (hv : ch.mode.Valid) :
    (burstSjoin ch link sourceId users).modes = burstLetters ch.mode ∧
    (burstSjoin ch link sourceId users).params = burstArgs ch.mode ++ [users] := by
  unfold burstSjoin
  rw [burstWords_eq hv]
  exact ⟨rfl, rfl⟩

/-- Every argument is a word. -/
theorem burstArgs_words {m : Mode} (hv : m.Valid) :
    ∀ t ∈ burstArgs m, t ≠ [] ∧ (32 : UInt8) ∉ t ∧ NoNul t := by
  intro t ht
  unfold burstArgs at ht
  rcases List.mem_append.mp ht with ht | ht
  · split at ht
    · rw [List.mem_singleton.mp ht]
      exact ⟨fmtInt_ne_nil _, fmtInt_noSpace _, fmtInt_noNul _⟩
    · exact absurd ht List.not_mem_nil
  · split at ht
    · rename_i hkey
      rw [List.mem_singleton.mp ht]
      exact ⟨hkey, hv.noSpace, hv.noNul⟩
    · exact absurd ht List.not_mem_nil

theorem burstSjoin_wellFormed (hv : ch.mode.Valid) (hnul : NoNul users) :
    (burstSjoin ch link sourceId users).wellFormed = true := by
  have hwords := burstArgs_words hv
  unfold Sjoin.wellFormed
  rw [(burstSjoin_params hv).2, List.dropLast_concat, Bool.and_eq_true, List.all_eq_true,
    List.all_eq_true]
  constructor
  · intro t ht
    rcases List.mem_append.mp ht with ht | ht
    · simpa [NoNul] using (hwords t ht).2.2
    · rw [List.mem_singleton.mp ht]
      simpa [NoNul] using hnul
  · intro t ht
    simpa using (hwords t ht).2.1

/-- The `SJOIN` is read as the modes without the ninth bit. -/
theorem burstSjoin_parse (hv : ch.mode.Valid) (hcheck : checkChannelName ch.chname = true)
    (hhash : ch.chname.head? = some 35) (husers : users.dropWhile (· == 32) ≠ []) :
    sjoinParse (burstSjoin ch link sourceId users)
      = some ({ ch.mode with mode := ch.mode.mode &&& 0xff }, users.dropWhile (· == 32)) := by
  have hne : users ≠ [] := by
    rintro rfl
    exact husers rfl
  have hhead : (burstArgs ch.mode ++ [users]).headD [] ≠ [] := by
    cases hargs : burstArgs ch.mode with
    | nil => exact hne
    | cons t l => exact (burstArgs_words hv t (by rw [hargs]; exact List.mem_cons_self)).1
  have hname : (!isChannelName ch.chname || !checkChannelName ch.chname
      || ch.chname.head? == some 38) = false := by
    rw [isChannelName, hcheck, hhash]
    rfl
  have hlast : (burstArgs ch.mode ++ [users]).getD (burstArgs ch.mode).length [] = users := by
    simp
  unfold sjoinParse
  rw [(burstSjoin_params hv).1, (burstSjoin_params hv).2, if_neg hhead,
    show (burstSjoin ch link sourceId users).name = ch.chname from rfl, hname,
    if_neg Bool.false_ne_true, sjoinModes_burst hv users]
  simp only [hlast, if_neg husers]

end Carried

/-- The modes that arrive are those that were sent exactly when the channel is
    not `+x` and its limit not negative. -/
theorem join_none_eq_iff {m : Mode} (hv : m.Valid) :
    ({ m with mode := m.mode &&& 0xff } : Mode).join Mode.none = m
      ↔ m.mode &&& modeSpamplease = 0 ∧ 0 ≤ m.limit := by
  rw [← and_mask_eq_iff hv.bits]
  constructor
  · intro h
    have hword := congrArg Mode.mode h
    have hlimit := congrArg Mode.limit h
    rw [Mode.join_limit] at hlimit
    refine ⟨?_, ?_⟩
    · exact UInt32.or_zero.symm.trans hword
    · exact le_trans (le_max_right m.limit 0) (le_of_eq hlimit)
  · rintro ⟨hword, hlimit⟩
    rw [hword, Mode.join_none hlimit]

/-- A channel of one server, carried by its burst to a second server that does
    not have it, arrives with its modes exactly when `+x` is not set and the
    limit is not negative. -/
theorem burst_kept_iff {cfg cfg' : Config} {srv srv' : Server}
    (hrun : Reach (Server.step cfg) anyStep Server.start srv)
    (hrun' : Reach (Server.step cfg') anyStep Server.start srv')
    {p : Nat} (hp : p ∈ srv.table.globalChannelList)
    (hhash : (srv.table.chan p).chname.head? = some 35)
    (hnone : findChannel srv'.table (srv.table.chan p).chname = none)
    {link : Nat} {sourceId : Bytes} {users : CStr} {now : Int}
    (husers : ∃ u ∈ sjoinUsers [] (users.bytes.dropWhile (· == 32)),
      (sjoinTarget srv' link u).isSome) :
    BurstKept (srv.table.chan p) srv' (burstSjoin (srv.table.chan p) link sourceId users.bytes) now
      ↔ (srv.table.chan p).mode.mode &&& modeSpamplease = 0 ∧ 0 ≤ (srv.table.chan p).mode.limit := by
  have hreach := Server.reachable_of_run hrun
  have hok := hreach.tableOk
  have hok' := (Server.reachable_of_run hrun').tableOk
  have hv : (srv.table.chan p).mode.Valid :=
    hreach.forall_chan (P := fun ch => ch.mode.Valid) (fun _ _ _ => Mode.valid_none)
      (fun _ _ _ hu => hu.modeValid) p
  have hcheck : checkChannelName (srv.table.chan p).chname = true := by
    refine hreach.forall_chan (P := fun ch => checkChannelName ch.chname = true) ?_ ?_ p
    · exact fun s now hs => List.all_eq_true.mpr fun b hb =>
        List.all_eq_true.mp hs b (List.mem_of_mem_take hb)
    · intro client ch ch' hu hch
      rw [hu.chname]
      exact hch
  have hnul := hok.noNul p hp
  have hlen := hok.length_lt p hp
  generalize srv.table.chan p = ch at hhash hnone hv hcheck hnul hlen ⊢
  have hrest : users.bytes.dropWhile (· == 32) ≠ [] := by
    intro hnil
    obtain ⟨u, hu, hsome⟩ := husers
    rw [hnil] at hu
    rw [List.mem_singleton.mp hu, sjoinTarget_nil] at hsome
    cases hsome
  have hparse : sjoinParse (burstSjoin ch link sourceId users.bytes) = _ :=
    burstSjoin_parse hv hcheck hhash hrest
  have hne : ch.chname ≠ [] := by
    intro hnil
    rw [hnil] at hhash
    cases hhash
  rw [findChannel, if_neg hne] at hnone
  have hholds := msSjoin_new hok' hnul hlen hnone
    ⟨burstSjoin_wellFormed hv users.noNul, irccmp_self _, _, _, hparse, husers⟩ now
  rw [Sjoin.stamped_eq hparse] at hholds
  have hfind : findChannel (msSjoin srv' (burstSjoin ch link sourceId users.bytes) now).table ch.chname
      = some srv'.table.next := by
    rw [findChannel, if_neg hne]
    exact hholds.lookup hnul hnul (irccmp_self _)
  rw [← join_none_eq_iff hv]
  unfold BurstKept
  rw [hfind]
  constructor
  · rintro ⟨q, hq, hmode⟩
    obtain rfl := Option.some.inj hq
    exact hholds.mode.symm.trans hmode
  · intro hmode
    exact ⟨_, rfl, hholds.mode.trans hmode⟩

-- ============================================================================
-- Two runs
-- ============================================================================

/-- A mode command of the user at an address. -/
def modeArgs (c : Nat) (parv : List Bytes) : ModeArgs := ⟨c, parv, fun _ => none, 20⟩

/-- The server after she made the channel `#a` and set modes there. -/
def aliceServer (parv : List Bytes) : Server :=
  [Action.introduce alice, .join 0 [35, 97] [] true false 10,
    .mode [35, 97] (modeArgs 0 parv)].foldl (Reach.perform (Server.step plainConfig)) Server.start

theorem aliceServer_reach (parv : List Bytes) :
    Reach (Server.step plainConfig) anyStep Server.start (aliceServer parv) :=
  Reach.performed_all _ .init

/-- The channel with `+ntlk 5 k`, sent to a server where `bob` is. -/
def limitKeyChannel : Channel := (aliceServer [[43, 108, 107], [53], [107]]).table.chan 0

theorem burst_kept_of_limit_key :
    limitKeyChannel.mode = ⟨modeTopiclimit ||| modeNoprivmsgs, 5, [107]⟩ ∧
      BurstKept limitKeyChannel bobServer (burstSjoin limitKeyChannel 1 [] [98, 111, 98]) 20 := by
  refine ⟨by decide, ?_⟩
  refine (@burst_kept_iff plainConfig plainConfig _ _ (aliceServer_reach _) bobServer_reach
    0 (by decide) (by decide) rfl 1 [] ⟨[98, 111, 98], by decide⟩ 20 ?_).mpr ?_
  · exact ⟨[98, 111, 98], by decide, by decide⟩
  · exact ⟨by decide, by decide⟩

/-- The channel with `+ntx`. -/
def spampleaseChannel : Channel := (aliceServer [[43, 120]]).table.chan 0

theorem not_burst_kept_of_spamplease :
    ¬ ∀ (srv srv' : Server) (p : Nat) (link : Nat) (sourceId : Bytes) (users : CStr) (now : Int),
      Reach (Server.step plainConfig) anyStep Server.start srv →
      Reach (Server.step plainConfig) anyStep Server.start srv' →
      p ∈ srv.table.globalChannelList → (srv.table.chan p).chname.head? = some 35 →
      findChannel srv'.table (srv.table.chan p).chname = none →
      (∃ u ∈ sjoinUsers [] (users.bytes.dropWhile (· == 32)), (sjoinTarget srv' link u).isSome) →
      BurstKept (srv.table.chan p) srv'
        (burstSjoin (srv.table.chan p) link sourceId users.bytes) now := by
  intro h
  obtain ⟨q, hq, hmode⟩ := h (aliceServer [[43, 120]]) bobServer 0 1 [] ⟨[98, 111, 98], by decide⟩ 20
    (aliceServer_reach _) bobServer_reach (by decide) (by decide)
    (by decide) ⟨[98, 111, 98], by decide, by decide⟩
  have hfind : findChannel (msSjoin bobServer (burstSjoin spampleaseChannel 1 [] [98, 111, 98])
      20).table spampleaseChannel.chname = some 0 := by decide
  obtain rfl := Option.some.inj (hfind.symm.trans hq)
  revert hmode
  decide

end Bluebox.Chan
