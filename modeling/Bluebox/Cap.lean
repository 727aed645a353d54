/-
  Bluebox.Cap

  Client capabilities: `CAP REQ` (`cap_req` and `clicap_find` in `modules/m_cap.c`).

  The replies are collected in two buffers and sent only when the whole request is known.
  What is added and what is removed is kept in two sets, and the removals come last, where
  the replies list the words in their order.
-/
import Bluebox.Bandb.Params
import Bluebox.Match

namespace Bluebox.Cap

open Bluebox.Lib

-- ============================================================================
-- Capabilities
-- ============================================================================

/-- `struct clicap`. -/
structure Clicap where
  name : Bytes
  capServ : BitVec 32
  capCli : BitVec 32
  sticky : Bool
deriving DecidableEq, Repr

/-- `multi-prefix`, with `CLICAP_MULTI_PREFIX`. -/
def multiPrefix : Clicap := ⟨[109, 117, 108, 116, 105, 45, 112, 114, 101, 102, 105, 120], 1, 0, false⟩

/-- `clicap_list`. -/
def clicapList : List Clicap := [multiPrefix]

/-- The `bsearch` of `clicap_find`. -/
def findClicap (name : Bytes) : Option Clicap := clicapList.find? fun cap => irccmp name cap.name == 0

/-- What `clicap_find` gives: the capability, `negate`, `finished`, and what is left. -/
structure Found where
  cap : Option Clicap
  negate : Bool
  finished : Bool
  p : Bytes

/-- The part of `clicap_find` behind the test for `-`. -/
def clicapToken (negate : Bool) (p : Bytes) : Found :=
  -- someone sent a '-' without a parameter
  if negate ∧ p = [] then ⟨none, true, false, p⟩
  else
    match strchr 32 p with
    | some (w, s) =>
      match findClicap w with
      | some cap => ⟨some cap, negate, false, s⟩
      | none => ⟨none, negate, false, p⟩
    | none =>
      match findClicap p with
      | some cap => ⟨some cap, negate, true, p⟩
      | none => ⟨none, negate, false, p⟩

/-- `clicap_find`. -/
def clicapFind (p : Bytes) (finished : Bool) : Found :=
  if finished then ⟨none, false, true, p⟩
  else
    match p.dropWhile isSpace with
    | [] => ⟨none, false, true, []⟩
    | c :: rest => clicapToken (c == 45) (if c == 45 then rest else c :: rest)

-- ============================================================================
-- cap_req
-- ============================================================================

/-- `BUFSIZE`. -/
def bufsize : Nat := 512

/-- What the loop of `cap_req` keeps; `second` is `i`. -/
structure CapReq where
  pbuf0 : Bytes
  pbuf1 : Bytes
  second : Bool
  plen : Nat
  capadd : BitVec 32
  capdel : BitVec 32

/-- The text for a capability. -/
def capText (negate : Bool) (cap : Clicap) : Bytes :=
  (if negate then [45] else if cap.sticky then [61] else []) ++ (if cap.capCli ≠ 0 then [126] else []) ++ cap.name ++ [32]

/-- `strcat` to one of the buffers; there is no result where it does not fit. -/
def CapReq.strcat (s : CapReq) (text : Bytes) : Option CapReq :=
  let pbuf := (if s.second then s.pbuf1 else s.pbuf0) ++ text
  if pbuf.length + 1 > bufsize then none
  else if s.second then some { s with pbuf1 := pbuf, plen := s.plen + text.length }
  else some { s with pbuf0 := pbuf, plen := s.plen + text.length }

/-- One turn of the loop, for a capability that is not sticky off. -/
def CapReq.put (buflen : Nat) (s : CapReq) (negate : Bool) (cap : Clicap) : Option CapReq :=
  let s := if buflen + s.plen + cap.name.length + 6 ≥ bufsize then { s with pbuf1 := [], plen := 0, second := true } else s
  (s.strcat (capText negate cap)).map fun s =>
    if negate then { s with capdel := s.capdel ||| cap.capServ } else { s with capadd := s.capadd ||| cap.capServ }

/-- The loop of `cap_req`, with its `finished` at the end. -/
def capReqLoop (buflen : Nat) : Nat → Bytes → Bool → CapReq → Option (CapReq × Bool)
  | 0, _, _, _ => none
  | fuel + 1, p, finished, s =>
    let found := clicapFind p finished
    match found.cap with
    | none => some (s, found.finished)
    | some cap =>
      if found.negate ∧ cap.sticky then some (s, false)
      else (s.put buflen found.negate cap).bind (capReqLoop buflen fuel found.p found.finished)

/-- The names that the replies begin with, as long as they may be. -/
structure Names where
  me : Bytes
  name : Bytes
  me_le : me.length ≤ 63
  name_le : name.length ≤ 30

/-- `source_p->name`, or a star. -/
def Names.source (n : Names) : Bytes := if n.name = [] then [42] else n.name

/-- `buf`: `:%s CAP %s ACK`. -/
def Names.buf (n : Names) : Bytes := 58 :: n.me ++ [32, 67, 65, 80, 32] ++ n.source ++ [32, 65, 67, 75]

/-- A reply: nothing, `NAK` with the request, or the lines of `ACK`. -/
inductive Reply
  | nothing
  | nak (arg : Bytes)
  | ack (lines : List (Bytes × Bytes))
deriving DecidableEq, Repr

/-- What `cap_req` looks at and changes. -/
structure Client where
  registered : Bool
  /-- `FLAGS_CLICAP`. -/
  clicap : Bool
  caps : BitVec 32
deriving DecidableEq, Repr

/-- `cap_req`.  A line of `ACK` comes as what stands up to its last parameter, and that
    parameter. -/
def Client.capReq (n : Names) (source : Client) (arg : Bytes) : Option (Client × Reply) :=
  let source := if source.registered then source else { source with clicap := true }
  if arg = [] then some (source, .nothing)
  else
    (capReqLoop n.buf.length (arg.length + 1) (strlcpy arg bufsize) false ⟨[], [], false, 0, 0, 0⟩).map fun r =>
      if r.2 = false then (source, .nak arg)
      else
        ({ source with caps := (source.caps ||| r.1.capadd) &&& ~~~ r.1.capdel },
          .ack (if r.1.second then [(n.buf ++ [32, 42, 32, 58], r.1.pbuf0), (n.buf ++ [32, 58], r.1.pbuf1)]
            else [(n.buf ++ [32, 58], r.1.pbuf0)]))

-- ============================================================================
-- What the client is told
-- ============================================================================

/-- The words of a text. -/
def words (s : Bytes) : List Bytes := ((s.splitOn 32).map (List.dropWhile isSpace)).filter (· ≠ [])

/-- A word of a request: whether the capability is removed, and which it is. -/
def readToken (w : Bytes) : Option (Bool × Clicap) :=
  match w with
  | 45 :: name => (findClicap name).map (true, ·)
  | name => (findClicap name).map (false, ·)

/-- A word of a reply, without its modifiers. -/
def readAck (w : Bytes) : Option (Bool × Clicap) :=
  match w.takeWhile (fun b => b == 45 || b == 61 || b == 126), w.dropWhile fun b => b == 45 || b == 61 || b == 126 with
  | modifiers, name => (findClicap name).map (modifiers.contains 45, ·)

/-- What of the last parameter of a line is sent: a line has 510 bytes at most. -/
def sentText (line : Bytes × Bytes) : Bytes := line.2.take (510 - line.1.length)

/-- The words of the lines of `ACK`. -/
def listed (lines : List (Bytes × Bytes)) : List (Option (Bool × Clicap)) :=
  (lines.flatMap fun line => words (sentText line)).map readAck

/-- A word, applied to the capabilities. -/
def applyToken (caps : BitVec 32) : Option (Bool × Clicap) → BitVec 32
  | none => caps
  | some (true, cap) => caps &&& ~~~ cap.capServ
  | some (false, cap) => caps ||| cap.capServ

/-- A `NAK` changes nothing, and an `ACK` lists all that was asked for and leaves what the
    client gets by applying it.  All is within the buffers. -/
def Honest (n : Names) (source : Client) (arg : Bytes) : Prop :=
  ∃ source' reply, source.capReq n arg = some (source', reply) ∧
    match reply with
    | .nothing => source'.caps = source.caps
    | .nak _ => source'.caps = source.caps
    | .ack lines => source'.caps = (listed lines).foldl applyToken source.caps ∧
        (words arg).map readToken = listed lines

/-- A request with a word that is not known, without one that removes, or whose last one
    removes. -/
def RemovesLast (arg : Bytes) : Prop :=
  (∃ w ∈ words arg, readToken w = none) ∨ (∀ w ∈ words arg, w.head? ≠ some 45) ∨
    ∃ w, (words arg).getLast? = some w ∧ w.head? = some 45

-- ============================================================================
-- Words
-- ============================================================================

variable {p w x y : Bytes} {c : UInt8} {ws : List Bytes}

theorem words_nil : words [] = [] := by decide

theorem words_append (x y : Bytes) : words (x ++ 32 :: y) = words x ++ words y := by
  unfold words
  rw [List.splitOn_append_cons_self, List.map_append, List.filter_append]

theorem words_space (hc : isSpace c = true) : words (c :: p) = words p := by
  by_cases hblank : c = 32
  · rw [hblank, ← List.nil_append (32 :: p), words_append, words_nil, List.nil_append]
  · unfold words
    obtain ⟨q, qs, hq⟩ := List.exists_cons_of_ne_nil (List.splitOn_ne_nil 32 p)
    rw [List.splitOn_cons_eq_if_modifyHead, if_neg (fun h => hblank (beq_iff_eq.mp h)), hq, List.modifyHead_cons,
      List.map_cons, List.map_cons, List.dropWhile_cons_of_pos hc]

theorem words_dropWhile (p : Bytes) : words (p.dropWhile isSpace) = words p := by
  induction p with
  | nil => rfl
  | cons c p ih =>
    by_cases hc : isSpace c = true
    · rw [List.dropWhile_cons_of_pos hc, ih, words_space hc]
    · rw [List.dropWhile_cons_of_neg hc]

/-- A text that begins with a word. -/
theorem words_word (hc : ¬ isSpace c = true) (hw : (32 : UInt8) ∉ c :: w) : words (c :: w) = [c :: w] := by
  unfold words
  rw [List.splitOn_eq_singleton hw, List.map_singleton, List.dropWhile_cons_of_neg hc]
  rfl

theorem words_word_append (hc : ¬ isSpace c = true) (hw : (32 : UInt8) ∉ c :: w) :
    words (c :: w ++ 32 :: x) = (c :: w) :: words x := by
  rw [words_append, words_word hc hw]
  rfl

/-- The first word of a text: there is none, or it is the last one, or a blank follows. -/
theorem words_cases (p : Bytes) : (p.dropWhile isSpace = [] ∧ words p = []) ∨
    ∃ c w, ¬ isSpace c = true ∧ (32 : UInt8) ∉ c :: w ∧
      ((p.dropWhile isSpace = c :: w ∧ words p = [c :: w]) ∨
        ∃ s, p.dropWhile isSpace = c :: w ++ 32 :: s ∧ words p = (c :: w) :: words s) := by
  cases hdrop : p.dropWhile isSpace with
  | nil => exact Or.inl ⟨rfl, by rw [← words_dropWhile, hdrop, words_nil]⟩
  | cons c q =>
    have hc : ¬ isSpace c = true := by
      have hhead := List.head?_dropWhile_not isSpace p
      rw [hdrop] at hhead
      exact Bool.not_eq_true _ ▸ hhead
    have hblank : c ≠ 32 := by
      rintro rfl
      exact hc rfl
    refine Or.inr ?_
    cases hfind : strchr 32 q with
    | none =>
      have hq : (32 : UInt8) ∉ c :: q := List.not_mem_cons_of_ne_of_not_mem hblank.symm (strchr_eq_none_iff.mp hfind)
      exact ⟨c, q, hc, hq, Or.inl ⟨rfl, by rw [← words_dropWhile, hdrop, words_word hc hq]⟩⟩
    | some parts =>
      obtain ⟨w, s⟩ := parts
      obtain ⟨rfl, hw⟩ := strchr_eq_some hfind
      have hw' : (32 : UInt8) ∉ c :: w := List.not_mem_cons_of_ne_of_not_mem hblank.symm hw
      exact ⟨c, w, hc, hw', Or.inr ⟨s, rfl, by rw [← words_dropWhile, hdrop, ← List.cons_append, words_word_append hc hw']⟩⟩

theorem words_subset (p : Bytes) : ∀ w ∈ words p, w ⊆ p := by
  induction hlen : p.length using Nat.strong_induction_on generalizing p with
  | _ n ih =>
    intro w hw
    have hdrop := List.dropWhile_suffix isSpace (l := p)
    have hlength := hdrop.length_le
    obtain ⟨-, hwords⟩ | ⟨c, v, -, -, ⟨hp, hwords⟩ | ⟨s, hp, hwords⟩⟩ := words_cases p
    · rw [hwords] at hw
      exact absurd hw List.not_mem_nil
    · rw [hwords, List.mem_singleton] at hw
      rw [hw, ← hp]
      exact hdrop.subset
    · rw [hp, List.length_append, List.length_cons, List.length_cons] at hlength
      rw [hp] at hdrop
      rw [hwords] at hw
      obtain rfl | hw := List.mem_cons.mp hw
      · exact List.Subset.trans (List.subset_append_left _ _) hdrop.subset
      · have hs : s ⊆ c :: v ++ 32 :: s := fun b hb => List.mem_append_right _ (List.mem_cons_of_mem 32 hb)
        exact List.Subset.trans (ih s.length (by omega) s rfl w hw) (List.Subset.trans hs hdrop.subset)

/-- The room that words take, each with a blank behind it. -/
def room (ws : List Bytes) : Nat := (ws.map fun w => w.length + 1).sum

theorem room_words_le (p : Bytes) : room (words p) ≤ p.length + 1 := by
  induction hlen : p.length using Nat.strong_induction_on generalizing p with
  | _ n ih =>
    have hdrop := (List.dropWhile_suffix isSpace (l := p)).length_le
    obtain ⟨-, hwords⟩ | ⟨c, w, -, -, ⟨hp, hwords⟩ | ⟨s, hp, hwords⟩⟩ := words_cases p
    · rw [hwords]
      exact Nat.zero_le _
    · rw [hwords]
      rw [hp, List.length_cons] at hdrop
      show (c :: w).length + 1 + 0 ≤ n + 1
      rw [List.length_cons]
      omega
    · rw [hp, List.length_append, List.length_cons, List.length_cons] at hdrop
      have hrest := ih s.length (by omega) s rfl
      rw [hwords]
      show (c :: w).length + 1 + room (words s) ≤ n + 1
      rw [List.length_cons]
      omega

/-- The name in a word. -/
def tokenName (c : UInt8) (w : Bytes) : Bytes := if c == 45 then w else c :: w

theorem readToken_cons (c : UInt8) (w : Bytes) :
    readToken (c :: w) = (findClicap (tokenName c w)).map (c == 45, ·) := by
  unfold tokenName
  by_cases hc : c = 45
  · subst hc
    rfl
  · have hneg : (c == 45) = false := beq_eq_false_iff_ne.mpr hc
    rw [hneg, if_neg Bool.false_ne_true]
    unfold readToken
    split
    · rename_i h
      exact absurd (List.cons.inj h).1 hc
    · rfl

/-- `multi-prefix` is all there is. -/
theorem findClicap_some {name : Bytes} {cap : Clicap} (hname : NoNul name) (h : findClicap name = some cap) :
    cap = multiPrefix ∧ name.length = 12 := by
  unfold findClicap at h
  have hcap : cap = multiPrefix := List.mem_singleton.mp (List.mem_of_find?_eq_some h)
  have hcmp := List.find?_some h
  rw [beq_iff_eq, hcap, irccmp_eq_zero_iff hname (by decide)] at hcmp
  have hlen := congrArg List.length hcmp
  rw [List.length_map, List.length_map] at hlen
  exact ⟨hcap, hlen⟩

/-- A word that is known has `-` in front when it removes. -/
theorem readToken_some {neg : Bool} {cap : Clicap} (hw : NoNul w) (h : readToken w = some (neg, cap)) :
    cap = multiPrefix ∧ w.length = 12 + neg.toNat ∧ (neg = true ↔ w.head? = some 45) := by
  cases w with
  | nil => cases h
  | cons c w =>
    rw [readToken_cons, Option.map_eq_some_iff] at h
    obtain ⟨found, hfind, hfound⟩ := h
    obtain ⟨rfl, rfl⟩ := Prod.mk.inj hfound
    have hsubset : tokenName c w ⊆ c :: w := by
      unfold tokenName
      split
      · exact List.subset_cons_self c w
      · exact List.Subset.refl _
    obtain ⟨hcap, hlen⟩ := findClicap_some (fun h0 => hw (hsubset h0)) hfind
    refine ⟨hcap, ?_, ?_⟩
    · unfold tokenName at hlen
      rw [List.length_cons]
      by_cases hc : (c == 45) = true
      · rw [if_pos hc] at hlen
        rw [hlen, hc]
        rfl
      · rw [if_neg hc] at hlen
        rw [Bool.not_eq_true] at hc
        rw [← List.length_cons, hlen, hc]
        rfl
    · rw [beq_iff_eq, List.head?_cons, Option.some_inj]

theorem findClicap_nil : findClicap [] = none := by decide

theorem clicapToken_none {negate : Bool} {name : Bytes}
    (hp : p = name ∧ strchr 32 p = none ∨ ∃ s, strchr 32 p = some (name, s)) (h : findClicap name = none) :
    (clicapToken negate p).cap = none ∧ (clicapToken negate p).finished = false := by
  unfold clicapToken
  split
  · exact ⟨rfl, rfl⟩
  · obtain ⟨rfl, hp⟩ | ⟨s, hp⟩ := hp
    · rw [hp]
      dsimp only
      rw [h]
      exact ⟨rfl, rfl⟩
    · rw [hp]
      dsimp only
      rw [h]
      exact ⟨rfl, rfl⟩

theorem clicapToken_last {negate : Bool} {cap : Clicap} (hp : strchr 32 p = none) (h : findClicap p = some cap) :
    clicapToken negate p = ⟨some cap, negate, true, p⟩ := by
  unfold clicapToken
  have hne : ¬ (negate = true ∧ p = []) := by
    rintro ⟨-, rfl⟩
    rw [findClicap_nil] at h
    cases h
  rw [if_neg hne, hp]
  dsimp only
  rw [h]

theorem clicapToken_more {negate : Bool} {name s : Bytes} {cap : Clicap} (hp : strchr 32 p = some (name, s))
    (h : findClicap name = some cap) : clicapToken negate p = ⟨some cap, negate, false, s⟩ := by
  unfold clicapToken
  have hne : ¬ (negate = true ∧ p = []) := by
    rintro ⟨-, rfl⟩
    cases hp
  rw [if_neg hne, hp]
  dsimp only
  rw [h]

theorem blank_notMem_tokenName (hw : (32 : UInt8) ∉ c :: w) : (32 : UInt8) ∉ tokenName c w := by
  unfold tokenName
  split
  · exact fun h => hw (List.mem_cons_of_mem c h)
  · exact hw

theorem clicapFind_cons {q : Bytes} (hp : p.dropWhile isSpace = c :: q) :
    clicapFind p false = clicapToken (c == 45) (if c == 45 then q else c :: q) := by
  unfold clicapFind
  rw [if_neg Bool.false_ne_true, hp]

/-- What `clicap_find` makes of the first word. -/
theorem clicapFind_spec (p : Bytes) :
    (words p = [] ∧ (clicapFind p false).cap = none ∧ (clicapFind p false).finished = true) ∨
    ∃ w ws, words p = w :: ws ∧
      ((readToken w = none ∧ (clicapFind p false).cap = none ∧ (clicapFind p false).finished = false) ∨
        ∃ neg cap, readToken w = some (neg, cap) ∧
          ((∃ q, clicapFind p false = ⟨some cap, neg, true, q⟩ ∧ ws = [] ∧ 0 < p.length) ∨
            ∃ s, clicapFind p false = ⟨some cap, neg, false, s⟩ ∧ words s = ws ∧ s.length < p.length ∧ s ⊆ p)) := by
  have hsuffix := List.dropWhile_suffix isSpace (l := p)
  have hdrop := hsuffix.length_le
  obtain ⟨hp, hwords⟩ | ⟨c, w, -, hw, ⟨hp, hwords⟩ | ⟨s, hp, hwords⟩⟩ := words_cases p
  · refine Or.inl ⟨hwords, ?_⟩
    unfold clicapFind
    rw [if_neg Bool.false_ne_true, hp]
    exact ⟨rfl, rfl⟩
  · have hname := strchr_eq_none_iff.mpr (blank_notMem_tokenName hw)
    have hfind : clicapFind p false = clicapToken (c == 45) (tokenName c w) := clicapFind_cons hp
    rw [hp, List.length_cons] at hdrop
    refine Or.inr ⟨c :: w, [], hwords, ?_⟩
    rw [readToken_cons, hfind]
    cases hcap : findClicap (tokenName c w) with
    | none => exact Or.inl ⟨rfl, clicapToken_none (Or.inl ⟨rfl, hname⟩) hcap⟩
    | some cap => exact Or.inr ⟨_, cap, rfl, Or.inl ⟨_, clicapToken_last hname hcap, rfl, by omega⟩⟩
  · have hq : (if (c == 45) = true then w ++ 32 :: s else c :: (w ++ 32 :: s)) = tokenName c w ++ 32 :: s := by
      unfold tokenName
      split
      · rfl
      · rfl
    have hname : strchr 32 (tokenName c w ++ 32 :: s) = some (tokenName c w, s) :=
      strchr_append (blank_notMem_tokenName hw) s
    have hfind : clicapFind p false = clicapToken (c == 45) (tokenName c w ++ 32 :: s) := by
      rw [clicapFind_cons hp, List.append_eq, hq]
    rw [hp, List.length_append, List.length_cons, List.length_cons] at hdrop
    have hsubset : s ⊆ p := by
      rw [hp] at hsuffix
      exact List.Subset.trans (fun b hb => List.mem_append_right _ (List.mem_cons_of_mem 32 hb)) hsuffix.subset
    refine Or.inr ⟨c :: w, words s, hwords, ?_⟩
    rw [readToken_cons, hfind]
    cases hcap : findClicap (tokenName c w) with
    | none => exact Or.inl ⟨rfl, clicapToken_none (Or.inr ⟨s, hname⟩) hcap⟩
    | some cap => exact Or.inr ⟨_, cap, rfl, Or.inr ⟨s, clicapToken_more hname hcap, rfl, by omega, hsubset⟩⟩

-- ============================================================================
-- The buffers
-- ============================================================================

/-- The text for some words. -/
def render (ts : List (Bool × Clicap)) : Bytes := ts.flatMap fun t => capText t.1 t.2

/-- What some words add, and what they remove. -/
def adds (ts : List (Bool × Clicap)) : BitVec 32 := ts.foldl (fun a t => if t.1 then a else a ||| t.2.capServ) 0

def dels (ts : List (Bool × Clicap)) : BitVec 32 := ts.foldl (fun d t => if t.1 then d ||| t.2.capServ else d) 0

/-- The words `ts₀` are in the first buffer and `ts₁` in the second, and `rest` bytes are
    still to come.  The second one is used when the first one is full. -/
structure Filled (buflen rest : Nat) (ts₀ ts₁ : List (Bool × Clicap)) (s : CapReq) : Prop where
  pbuf0 : s.pbuf0 = render ts₀
  pbuf1 : s.pbuf1 = render ts₁
  first : s.second = false → ts₁ = [] ∧ s.plen = s.pbuf0.length
  second : s.second = true → s.plen = s.pbuf1.length ∧ 494 ≤ buflen + s.pbuf0.length
  room0 : buflen + s.pbuf0.length ≤ 507
  room1 : buflen + s.pbuf1.length ≤ 507
  total : s.pbuf0.length + s.pbuf1.length + rest ≤ 512

/-- The buffers and the sets hold the words so far. -/
structure Kept (buflen rest : Nat) (ts₀ ts₁ : List (Bool × Clicap)) (s : CapReq) : Prop extends
    Filled buflen rest ts₀ ts₁ s where
  capadd : s.capadd = adds (ts₀ ++ ts₁)
  capdel : s.capdel = dels (ts₀ ++ ts₁)

variable {buflen rest : Nat} {ts₀ ts₁ ts : List (Bool × Clicap)} {s : CapReq} {neg : Bool}

theorem adds_concat (ts : List (Bool × Clicap)) (neg : Bool) (cap : Clicap) :
    adds (ts ++ [(neg, cap)]) = if neg then adds ts else adds ts ||| cap.capServ := by
  unfold adds
  rw [List.foldl_append]
  rfl

theorem dels_concat (ts : List (Bool × Clicap)) (neg : Bool) (cap : Clicap) :
    dels (ts ++ [(neg, cap)]) = if neg then dels ts ||| cap.capServ else dels ts := by
  unfold dels
  rw [List.foldl_append]
  rfl

theorem render_concat (ts : List (Bool × Clicap)) (neg : Bool) (cap : Clicap) :
    render (ts ++ [(neg, cap)]) = render ts ++ capText neg cap := by
  unfold render
  rw [List.flatMap_append, List.flatMap_singleton]

theorem length_capText (neg : Bool) : (capText neg multiPrefix).length = 13 + neg.toNat := by
  cases neg with
  | false => rfl
  | true => rfl

theorem CapReq.strcat_first {text : Bytes} (hfirst : s.second = false) (hfits : (s.pbuf0 ++ text).length < bufsize) :
    s.strcat text = some { s with pbuf0 := s.pbuf0 ++ text, plen := s.plen + text.length } := by
  unfold CapReq.strcat
  rw [hfirst]
  dsimp only
  rw [if_neg Bool.false_ne_true, if_neg (by omega), if_neg Bool.false_ne_true]

theorem CapReq.strcat_second {text : Bytes} (hsecond : s.second = true) (hfits : (s.pbuf1 ++ text).length < bufsize) :
    s.strcat text = some { s with pbuf1 := s.pbuf1 ++ text, plen := s.plen + text.length } := by
  unfold CapReq.strcat
  rw [hsecond]
  dsimp only
  rw [if_pos rfl, if_neg (by omega), if_pos rfl]

/-- What a turn of the loop writes down of its word. -/
def CapReq.note (s : CapReq) (neg : Bool) (cap : Clicap) : CapReq :=
  if neg then { s with capdel := s.capdel ||| cap.capServ } else { s with capadd := s.capadd ||| cap.capServ }

theorem Filled.note {cap : Clicap} (h : Filled buflen rest ts₀ ts₁ s) :
    Filled buflen rest ts₀ ts₁ (s.note neg cap) := by
  cases neg with
  | false => exact ⟨h.pbuf0, h.pbuf1, h.first, h.second, h.room0, h.room1, h.total⟩
  | true => exact ⟨h.pbuf0, h.pbuf1, h.first, h.second, h.room0, h.room1, h.total⟩

theorem CapReq.note_sets {cap : Clicap} (hadd : s.capadd = adds ts) (hdel : s.capdel = dels ts) :
    (s.note neg cap).capadd = adds (ts ++ [(neg, cap)]) ∧ (s.note neg cap).capdel = dels (ts ++ [(neg, cap)]) := by
  rw [adds_concat, dels_concat]
  cases neg with
  | false => exact ⟨congrArg (· ||| cap.capServ) hadd, hdel⟩
  | true => exact ⟨hadd, congrArg (· ||| cap.capServ) hdel⟩

/-- A word goes to the buffer in use, or to the second one from then on. -/
theorem Filled.strcat (h : Filled buflen (13 + neg.toNat + rest) ts₀ ts₁ s) (hbuflen : buflen ≤ 103) :
    ∃ s' ts₀' ts₁',
      (if buflen + s.plen + multiPrefix.name.length + 6 ≥ bufsize then
          { s with pbuf1 := [], plen := 0, second := true } else s).strcat (capText neg multiPrefix) = some s' ∧
        Filled buflen rest ts₀' ts₁' s' ∧ ts₀' ++ ts₁' = ts₀ ++ ts₁ ++ [(neg, multiPrefix)] ∧
        s'.capadd = s.capadd ∧ s'.capdel = s.capdel := by
  have hlen := length_capText neg
  have hneg : neg.toNat ≤ 1 := Bool.toNat_le neg
  have htotal := h.total
  by_cases hroom : buflen + s.plen + multiPrefix.name.length + 6 ≥ bufsize
  · have hroom' : buflen + s.plen + 12 + 6 ≥ 512 := hroom
    -- the second buffer is not filled as well: the request is not long enough
    have hfirst : s.second = false := by
      rw [← Bool.not_eq_true]
      intro hsecond
      obtain ⟨hplen, hpbuf0⟩ := h.second hsecond
      omega
    obtain ⟨rfl, hplen⟩ := h.first hfirst
    have hpbuf1 : ([] ++ capText neg multiPrefix).length = 13 + neg.toNat := hlen
    rw [if_pos hroom, CapReq.strcat_second rfl (by rw [hpbuf1]; unfold bufsize; omega)]
    refine ⟨_, ts₀, [(neg, multiPrefix)], rfl, ?_, by rw [List.append_nil], rfl, rfl⟩
    have hfull : 494 ≤ buflen + s.pbuf0.length := by omega
    have hleft : s.pbuf0.length + (13 + neg.toNat) + rest ≤ 512 := by omega
    exact {
      pbuf0 := h.pbuf0
      pbuf1 := (render_concat [] neg multiPrefix).symm
      first := fun hs => Bool.noConfusion hs
      second := fun _ => ⟨by rw [Nat.zero_add]; rfl, hfull⟩
      room0 := h.room0
      room1 := by rw [hpbuf1]; omega
      total := by rw [hpbuf1]; exact hleft }
  · have hroom' : buflen + s.plen + 12 + 6 < 512 := Nat.lt_of_not_ge hroom
    rw [if_neg hroom]
    cases hsecond : s.second with
    | false =>
      obtain ⟨rfl, hplen⟩ := h.first hsecond
      have hpbuf0 : (s.pbuf0 ++ capText neg multiPrefix).length = s.pbuf0.length + (13 + neg.toNat) := by
        rw [List.length_append, hlen]
      rw [CapReq.strcat_first hsecond (by rw [hpbuf0]; unfold bufsize; omega)]
      refine ⟨_, ts₀ ++ [(neg, multiPrefix)], [], rfl, ?_, by rw [List.append_nil, List.append_nil], rfl, rfl⟩
      have hfits : buflen + (s.pbuf0.length + (13 + neg.toNat)) ≤ 507 := by omega
      have hleft : s.pbuf0.length + (13 + neg.toNat) + s.pbuf1.length + rest ≤ 512 := by omega
      exact {
        pbuf0 := by rw [render_concat, ← h.pbuf0]
        pbuf1 := h.pbuf1
        first := fun _ => ⟨rfl, by rw [hpbuf0, hlen, hplen]⟩
        second := fun hs => absurd (hsecond.symm.trans hs) Bool.false_ne_true
        room0 := by rw [hpbuf0]; exact hfits
        room1 := h.room1
        total := by rw [hpbuf0]; exact hleft }
    | true =>
      obtain ⟨hplen, hfull⟩ := h.second hsecond
      have hpbuf1 : (s.pbuf1 ++ capText neg multiPrefix).length = s.pbuf1.length + (13 + neg.toNat) := by
        rw [List.length_append, hlen]
      rw [CapReq.strcat_second hsecond (by rw [hpbuf1]; unfold bufsize; omega)]
      refine ⟨_, ts₀, ts₁ ++ [(neg, multiPrefix)], rfl, ?_, (List.append_assoc ts₀ ts₁ _).symm, rfl, rfl⟩
      have hfits : buflen + (s.pbuf1.length + (13 + neg.toNat)) ≤ 507 := by omega
      have hleft : s.pbuf0.length + (s.pbuf1.length + (13 + neg.toNat)) + rest ≤ 512 := by omega
      exact {
        pbuf0 := h.pbuf0
        pbuf1 := by rw [render_concat, ← h.pbuf1]
        first := fun hs => absurd (hs.symm.trans hsecond) Bool.false_ne_true
        second := fun _ => ⟨by rw [hpbuf1, hlen, hplen], hfull⟩
        room0 := h.room0
        room1 := by rw [hpbuf1]; exact hfits
        total := by rw [hpbuf1]; exact hleft }

/-- A turn of the loop. -/
theorem Kept.put (h : Kept buflen (13 + neg.toNat + rest) ts₀ ts₁ s) (hbuflen : buflen ≤ 103) :
    ∃ s' ts₀' ts₁', s.put buflen neg multiPrefix = some s' ∧ Kept buflen rest ts₀' ts₁' s' ∧
      ts₀' ++ ts₁' = ts₀ ++ ts₁ ++ [(neg, multiPrefix)] := by
  obtain ⟨s', ts₀', ts₁', hstrcat, hfilled, hts, hadd, hdel⟩ := h.toFilled.strcat hbuflen
  obtain ⟨hcapadd, hcapdel⟩ : (s'.note neg multiPrefix).capadd = adds (ts₀ ++ ts₁ ++ [(neg, multiPrefix)]) ∧
      (s'.note neg multiPrefix).capdel = dels (ts₀ ++ ts₁ ++ [(neg, multiPrefix)]) :=
    CapReq.note_sets (hadd.trans h.capadd) (hdel.trans h.capdel)
  refine ⟨s'.note neg multiPrefix, ts₀', ts₁', ?_, ⟨hfilled.note, ?_, ?_⟩, hts⟩
  · unfold CapReq.put
    dsimp only
    rw [hstrcat]
    rfl
  · rw [hcapadd, hts]
  · rw [hcapdel, hts]

-- ============================================================================
-- The loop
-- ============================================================================

theorem capReqLoop_finished {fuel : Nat} (buflen : Nat) (hfuel : 0 < fuel) (p : Bytes) (s : CapReq) :
    capReqLoop buflen fuel p true s = some (s, true) := by
  obtain ⟨fuel, rfl⟩ := Nat.exists_eq_add_one.mpr hfuel
  rfl

/-- The loop finishes when all the words are known, and has them in its buffers then. -/
theorem capReqLoop_spec (hbuflen : buflen ≤ 103) (fuel : Nat) : ∀ {p : Bytes} {s : CapReq} {ts₀ ts₁ : List (Bool × Clicap)},
    p.length < fuel → NoNul p → Kept buflen (room (words p)) ts₀ ts₁ s →
    ∃ s' finished, capReqLoop buflen fuel p false s = some (s', finished) ∧
      (finished = false → ∃ w ∈ words p, readToken w = none) ∧
      (finished = true → ∃ ts₀' ts₁', Kept buflen 0 ts₀' ts₁' s' ∧
        (ts₀' ++ ts₁').map some = (ts₀ ++ ts₁).map some ++ (words p).map readToken) := by
  induction fuel with
  | zero => exact fun hfuel => absurd hfuel (Nat.not_lt_zero _)
  | succ fuel ih =>
    intro p s ts₀ ts₁ hfuel hp hkept
    have hsubset := words_subset p
    unfold capReqLoop
    obtain ⟨hwords, hcap, hfinished⟩ | ⟨w, ws, hwords, ⟨hread, hcap, hfinished⟩ | ⟨neg, cap, hread, hfound⟩⟩ :=
      clicapFind_spec p
    · dsimp only
      rw [hcap, hfinished]
      rw [hwords] at hkept
      refine ⟨s, true, rfl, fun h => Bool.noConfusion h, fun _ => ⟨ts₀, ts₁, hkept, ?_⟩⟩
      rw [hwords, List.map_nil, List.append_nil]
    · dsimp only
      rw [hcap, hfinished]
      exact ⟨s, false, rfl, fun _ => ⟨w, hwords ▸ List.mem_cons_self, hread⟩, fun h => Bool.noConfusion h⟩
    · have hw : NoNul w := fun h0 => hp (hsubset w (hwords ▸ List.mem_cons_self) h0)
      obtain ⟨rfl, hlen, -⟩ := readToken_some hw hread
      have hroom : room (words p) = 13 + neg.toNat + room ws := by
        rw [hwords]
        show w.length + 1 + room ws = _
        rw [hlen]
        omega
      rw [hroom] at hkept
      obtain ⟨s', ts₀', ts₁', hput, hkept', hts⟩ := hkept.put hbuflen
      have hnext : (ts₀' ++ ts₁').map some = (ts₀ ++ ts₁).map some ++ [readToken w] := by
        rw [hts, List.map_append, hread]
        rfl
      have hsticky : ¬ (neg = true ∧ multiPrefix.sticky = true) := fun h => Bool.noConfusion h.2
      obtain ⟨q, hfind, rfl, hpos⟩ | ⟨q, hfind, rfl, hlength, hq⟩ := hfound
      · rw [hfind]
        dsimp only
        rw [if_neg hsticky, hput, Option.bind_some, capReqLoop_finished buflen (by omega)]
        refine ⟨s', true, rfl, fun h => Bool.noConfusion h, fun _ => ⟨ts₀', ts₁', hkept', ?_⟩⟩
        rw [hnext, hwords, List.map_singleton]
      · rw [hfind]
        dsimp only
        rw [if_neg hsticky, hput, Option.bind_some]
        obtain ⟨r, finished, hloop, hstop, hdone⟩ := ih (by omega) (fun h0 => hp (hq h0)) hkept'
        refine ⟨r, finished, hloop, fun h => ?_, fun h => ?_⟩
        · obtain ⟨v, hv, hread'⟩ := hstop h
          exact ⟨v, hwords ▸ List.mem_cons_of_mem w hv, hread'⟩
        · obtain ⟨ts₀'', ts₁'', hkept'', hts''⟩ := hdone h
          refine ⟨ts₀'', ts₁'', hkept'', ?_⟩
          rw [hts'', hnext, hwords, List.map_cons, List.append_assoc, List.singleton_append]

-- ============================================================================
-- The replies
-- ============================================================================

/-- All the words are of `multi-prefix`. -/
def OfMultiPrefix (ts : List (Bool × Clicap)) : Prop := ∀ t ∈ ts, t.2 = multiPrefix

theorem readAck_words_render (hts : OfMultiPrefix ts) : (words (render ts)).map readAck = ts.map some := by
  induction ts with
  | nil =>
    show (words []).map readAck = []
    rw [words_nil, List.map_nil]
  | cons t ts ih =>
    obtain ⟨neg, cap⟩ := t
    obtain rfl : cap = multiPrefix := hts (neg, cap) List.mem_cons_self
    have hrest := ih fun t ht => hts t (List.mem_cons_of_mem _ ht)
    -- the word, its blank, and the others
    have hword : ∃ c w, capText neg multiPrefix ++ render ts = c :: w ++ 32 :: render ts ∧ ¬ isSpace c = true ∧
        (32 : UInt8) ∉ c :: w ∧ readAck (c :: w) = some (neg, multiPrefix) := by
      cases neg with
      | false => exact ⟨109, multiPrefix.name.tail, rfl, by decide, by decide, rfl⟩
      | true => exact ⟨45, multiPrefix.name, rfl, by decide, by decide, rfl⟩
    obtain ⟨c, w, htext, hc, hw, hread⟩ := hword
    show (words (capText neg multiPrefix ++ render ts)).map readAck = _
    rw [htext, words_word_append hc hw, List.map_cons, hread, hrest, List.map_cons]

/-- What is cut from a line is the blank at its end. -/
theorem words_take_render {k : Nat} (hk : (render ts).length ≤ k + 1) :
    words ((render ts).take k) = words (render ts) := by
  by_cases hlong : (render ts).length ≤ k
  · rw [List.take_of_length_le hlong]
  · obtain rfl | ⟨ts, ⟨neg, cap⟩, rfl⟩ := List.eq_nil_or_concat' ts
    · exact absurd (Nat.zero_le k) hlong
    · obtain ⟨y, hy⟩ : ∃ y, render (ts ++ [(neg, cap)]) = y ++ [32] := by
        rw [render_concat]
        exact ⟨_, (List.append_assoc _ _ _).symm⟩
      rw [hy] at hk hlong ⊢
      rw [List.length_append, List.length_singleton] at hk hlong
      have hlen : y.length = k := by omega
      rw [← hlen, List.take_left, words_append, words_nil, List.append_nil]

theorem readAck_sentText {line : Bytes × Bytes} (hline : line.2 = render ts) (hts : OfMultiPrefix ts)
    (hlen : line.1.length + line.2.length ≤ 511) : (words (sentText line)).map readAck = ts.map some := by
  unfold sentText
  rw [hline] at hlen ⊢
  rw [words_take_render (by omega), readAck_words_render hts]

/-- The lines of the reply. -/
def ackLines (n : Names) (s : CapReq) : List (Bytes × Bytes) :=
  if s.second then [(n.buf ++ [32, 42, 32, 58], s.pbuf0), (n.buf ++ [32, 58], s.pbuf1)] else [(n.buf ++ [32, 58], s.pbuf0)]

theorem Kept.listed {n : Names} (h : Kept n.buf.length rest ts₀ ts₁ s) (hts : OfMultiPrefix (ts₀ ++ ts₁)) :
    listed (ackLines n s) = (ts₀ ++ ts₁).map some := by
  have h₀ : OfMultiPrefix ts₀ := fun t ht => hts t (List.mem_append_left ts₁ ht)
  have h₁ : OfMultiPrefix ts₁ := fun t ht => hts t (List.mem_append_right ts₀ ht)
  have hroom0 := h.room0
  have hroom1 := h.room1
  unfold Cap.listed ackLines
  cases hsecond : s.second with
  | false =>
    obtain ⟨rfl, -⟩ := h.first hsecond
    have hline : (n.buf ++ [32, 58]).length + s.pbuf0.length ≤ 511 := by
      rw [List.length_append]
      show n.buf.length + 2 + _ ≤ 511
      omega
    rw [if_neg Bool.false_ne_true, List.flatMap_singleton, readAck_sentText h.pbuf0 h₀ hline, List.append_nil]
  | true =>
    have hline0 : (n.buf ++ [32, 42, 32, 58]).length + s.pbuf0.length ≤ 511 := by
      rw [List.length_append]
      show n.buf.length + 4 + _ ≤ 511
      omega
    have hline1 : (n.buf ++ [32, 58]).length + s.pbuf1.length ≤ 511 := by
      rw [List.length_append]
      show n.buf.length + 2 + _ ≤ 511
      omega
    rw [if_pos rfl, List.flatMap_cons, List.flatMap_singleton, List.map_append, readAck_sentText h.pbuf0 h₀ hline0,
      readAck_sentText h.pbuf1 h₁ hline1, List.map_append]

-- ============================================================================
-- The capabilities
-- ============================================================================

theorem dels_eq (hts : OfMultiPrefix ts) : dels ts = if ∀ t ∈ ts, t.1 = false then 0 else 1 := by
  induction ts using List.reverseRecOn with
  | nil => rfl
  | append_singleton ts t ih =>
    obtain ⟨neg, cap⟩ := t
    obtain rfl : cap = multiPrefix := hts (neg, cap) (List.mem_append_right ts List.mem_cons_self)
    have hdels := ih fun t ht => hts t (List.mem_append_left _ ht)
    rw [dels_concat, hdels]
    cases neg with
    | false =>
      have hsame : (∀ t ∈ ts ++ [(false, multiPrefix)], t.1 = false) ↔ ∀ t ∈ ts, t.1 = false := by
        rw [List.forall_mem_append]
        exact and_iff_left (List.forall_mem_singleton.mpr rfl)
      rw [if_neg Bool.false_ne_true, if_congr hsame rfl rfl]
    | true =>
      have hremoves : ¬ ∀ t ∈ ts ++ [(true, multiPrefix)], t.1 = false := fun h =>
        Bool.noConfusion (h (true, multiPrefix) (List.mem_append_right ts List.mem_cons_self))
      rw [if_pos rfl, if_neg hremoves]
      split
      · rfl
      · rfl

theorem adds_eq (hts : OfMultiPrefix ts) : adds ts = 0 ∨ adds ts = 1 := by
  induction ts using List.reverseRecOn with
  | nil => exact Or.inl rfl
  | append_singleton ts t ih =>
    obtain ⟨neg, cap⟩ := t
    obtain rfl : cap = multiPrefix := hts (neg, cap) (List.mem_append_right ts List.mem_cons_self)
    have hadds := ih fun t ht => hts t (List.mem_append_left _ ht)
    rw [adds_concat]
    cases neg with
    | true => exact hadds
    | false =>
      obtain hadds | hadds := hadds
      · rw [hadds]
        exact Or.inr rfl
      · rw [hadds]
        exact Or.inr rfl

theorem bits_or_zero (x : BitVec 32) : x ||| 0 = x := BitVec.or_zero

theorem or_andNot (x s : BitVec 32) : (x ||| s) &&& ~~~ s = x &&& ~~~ s := by
  rw [BitVec.and_or_distrib_right, BitVec.and_not_self, bits_or_zero]

/-- The capabilities without the bit of `multi-prefix`, and with it, are what they are after
    any number of words. -/
theorem foldl_applyToken_bits (caps : BitVec 32) (hts : OfMultiPrefix ts) :
    (ts.map some).foldl applyToken caps &&& ~~~ 1 = caps &&& ~~~ 1 ∧
      (ts.map some).foldl applyToken caps ||| 1 = caps ||| 1 := by
  induction ts using List.reverseRecOn with
  | nil => exact ⟨rfl, rfl⟩
  | append_singleton ts t ih =>
    obtain ⟨neg, cap⟩ := t
    obtain rfl : cap = multiPrefix := hts (neg, cap) (List.mem_append_right ts List.mem_cons_self)
    obtain ⟨hand, hor⟩ := ih fun t ht => hts t (List.mem_append_left _ ht)
    rw [List.map_append, List.foldl_append]
    cases neg with
    | false =>
      show (_ ||| 1) &&& ~~~ 1 = _ ∧ (_ ||| 1) ||| 1 = _
      rw [or_andNot, BitVec.or_assoc, BitVec.or_self]
      exact ⟨hand, hor⟩
    | true =>
      show (_ &&& ~~~ 1) &&& ~~~ 1 = _ ∧ (_ &&& ~~~ 1) ||| 1 = _
      rw [BitVec.and_assoc, BitVec.and_self, hand]
      refine ⟨rfl, ?_⟩
      ext i hi
      rw [BitVec.getElem_or, BitVec.getElem_or, BitVec.getElem_and, BitVec.getElem_not]
      cases (1 : BitVec 32)[i] with
      | false => rw [Bool.or_false, Bool.or_false, Bool.not_false, Bool.and_true]
      | true => rw [Bool.or_true, Bool.or_true]

theorem bit_or_ne_andNot (x y : BitVec 32) : x ||| 1 ≠ y &&& ~~~ 1 := by
  intro h
  have hbit := congrArg (fun b => b.getLsbD 0) h
  rw [BitVec.getLsbD_or, BitVec.getLsbD_and, BitVec.getLsbD_not] at hbit
  have hone : (1 : BitVec 32).getLsbD 0 = true := rfl
  rw [hone, Bool.or_true, Bool.not_true, Bool.and_false, Bool.and_false] at hbit
  cases hbit

/-- The sets have the effect of the words one after the other when nothing is removed, or the
    last word removes. -/
theorem applied_iff (caps : BitVec 32) (hts : OfMultiPrefix ts) :
    (caps ||| adds ts) &&& ~~~ dels ts = (ts.map some).foldl applyToken caps ↔
      (∀ t ∈ ts, t.1 = false) ∨ ∃ t, ts.getLast? = some t ∧ t.1 = true := by
  obtain rfl | ⟨ts, ⟨neg, cap⟩, rfl⟩ := List.eq_nil_or_concat' ts
  · refine iff_of_true ?_ (Or.inl fun t ht => absurd ht List.not_mem_nil)
    show (caps ||| 0) &&& ~~~ 0 = caps
    rw [bits_or_zero]
    exact BitVec.and_allOnes
  · obtain rfl : cap = multiPrefix := hts (neg, cap) (List.mem_append_right ts List.mem_cons_self)
    have hts' : OfMultiPrefix ts := fun t ht => hts t (List.mem_append_left _ ht)
    obtain ⟨hand, hor⟩ := foldl_applyToken_bits caps hts'
    have hadds := adds_eq hts'
    have hdels := dels_eq hts'
    rw [List.map_append, List.foldl_append, adds_concat, dels_concat, List.getLast?_concat]
    cases neg with
    | true =>
      refine iff_of_true ?_ (Or.inr ⟨_, rfl, rfl⟩)
      show (caps ||| adds ts) &&& ~~~ (dels ts ||| 1) = _ &&& ~~~ 1
      have hone : dels ts ||| 1 = 1 := by
        rw [hdels]
        split
        · rfl
        · rfl
      rw [hone, hand]
      obtain hadds | hadds := hadds
      · rw [hadds, bits_or_zero]
      · rw [hadds, or_andNot]
    | false =>
      show (caps ||| (adds ts ||| 1)) &&& ~~~ dels ts = _ ||| 1 ↔ _
      have hone : adds ts ||| 1 = 1 := by
        obtain hadds | hadds := hadds
        · rw [hadds]
          rfl
        · rw [hadds]
          rfl
      rw [hone, hor, hdels]
      by_cases hnone : ∀ t ∈ ts, t.1 = false
      · rw [if_pos hnone]
        refine iff_of_true BitVec.and_allOnes (Or.inl ?_)
        rw [List.forall_mem_append]
        exact ⟨hnone, List.forall_mem_singleton.mpr rfl⟩
      · rw [if_neg hnone]
        refine iff_of_false ?_ ?_
        · rw [or_andNot]
          exact (bit_or_ne_andNot caps caps).symm
        · rintro (h | ⟨t, hlast, hneg⟩)
          · exact hnone fun t ht => h t (List.mem_append_left _ ht)
          · rw [← Option.some.inj hlast] at hneg
            cases hneg

-- ============================================================================
-- Requests
-- ============================================================================

theorem length_source_le (n : Names) : n.source.length ≤ 30 := by
  unfold Names.source
  split
  · decide
  · exact n.name_le

theorem length_buf_le (n : Names) : n.buf.length ≤ 103 := by
  have hme := n.me_le
  have hsource := length_source_le n
  unfold Names.buf
  rw [List.length_append, List.length_append, List.length_append, List.length_cons]
  show n.me.length + 1 + 5 + n.source.length + 4 ≤ 103
  omega

/-- What the words of a request say, when all are known. -/
theorem forall_of_map_eq {ws : List Bytes} (h : ts.map some = ws.map readToken) (hws : ∀ w ∈ ws, NoNul w) :
    OfMultiPrefix ts ∧ ws.map (fun w => w.head? == some 45) = ts.map Prod.fst := by
  induction ws generalizing ts with
  | nil =>
    obtain rfl := List.map_eq_nil_iff.mp h
    exact ⟨fun t ht => absurd ht List.not_mem_nil, rfl⟩
  | cons w ws ih =>
    obtain ⟨t, ts, rfl, ht, hts⟩ := List.map_eq_cons_iff.mp h
    obtain ⟨hcap, -, hneg⟩ := readToken_some (hws w List.mem_cons_self) ht.symm
    obtain ⟨hall, hmap⟩ := ih hts fun v hv => hws v (List.mem_cons_of_mem w hv)
    refine ⟨List.forall_mem_cons.mpr ⟨hcap, hall⟩, ?_⟩
    rw [List.map_cons, List.map_cons, hmap]
    refine congrArg (· :: ts.map Prod.fst) ?_
    rw [Bool.eq_iff_iff, beq_iff_eq]
    exact hneg.symm

/-- The condition on the words is the one on what they say. -/
theorem removesLast_iff {ws : List Bytes} (h : ws.map (fun w => w.head? == some 45) = ts.map Prod.fst) :
    ((∀ w ∈ ws, w.head? ≠ some 45) ∨ ∃ w, ws.getLast? = some w ∧ w.head? = some 45) ↔
      (∀ t ∈ ts, t.1 = false) ∨ ∃ t, ts.getLast? = some t ∧ t.1 = true := by
  have hall : (∀ w ∈ ws, w.head? ≠ some 45) ↔ ∀ t ∈ ts, t.1 = false := by
    calc (∀ w ∈ ws, w.head? ≠ some 45)
        ↔ ∀ b ∈ ws.map (fun w => w.head? == some 45), b = false := by
          rw [List.forall_mem_map]
          exact forall₂_congr fun w _ => beq_eq_false_iff_ne.symm
      _ ↔ ∀ t ∈ ts, t.1 = false := by
          rw [h, List.forall_mem_map]
  have hlast : (∃ w, ws.getLast? = some w ∧ w.head? = some 45) ↔ ∃ t, ts.getLast? = some t ∧ t.1 = true := by
    calc (∃ w, ws.getLast? = some w ∧ w.head? = some 45)
        ↔ (ws.map fun w => w.head? == some 45).getLast? = some true := by
          rw [List.getLast?_map, Option.map_eq_some_iff]
          exact exists_congr fun w => and_congr_right fun _ => beq_iff_eq.symm
      _ ↔ ∃ t, ts.getLast? = some t ∧ t.1 = true := by
          rw [h, List.getLast?_map, Option.map_eq_some_iff]
  rw [hall, hlast]

theorem kept_start (buflen : Nat) (hbuflen : buflen ≤ 103) (hrest : rest ≤ 512) :
    Kept buflen rest [] [] ⟨[], [], false, 0, 0, 0⟩ where
  pbuf0 := rfl
  pbuf1 := rfl
  first := fun _ => ⟨rfl, rfl⟩
  second := fun h => Bool.noConfusion h
  room0 := Nat.le_trans hbuflen (by decide)
  room1 := Nat.le_trans hbuflen (by decide)
  total := by
    show 0 + 0 + rest ≤ 512
    rwa [Nat.zero_add]
  capadd := rfl
  capdel := rfl

/-- A client that has not registered is kept from it by a request. -/
def Client.asked (source : Client) : Client := if source.registered then source else { source with clicap := true }

theorem Client.asked_caps (source : Client) : source.asked.caps = source.caps := by
  unfold Client.asked
  split
  · rfl
  · rfl

/-- What the request gives once its words are read. -/
theorem Client.capReq_of_loop {n : Names} {arg : Bytes} {finished : Bool} (source : Client) (harg : arg ≠ [])
    (hlen : arg.length ≤ 510)
    (hloop : capReqLoop n.buf.length (arg.length + 1) arg false ⟨[], [], false, 0, 0, 0⟩ = some (s, finished)) :
    source.capReq n arg = some (if finished = false then (source.asked, .nak arg) else
      ({ source.asked with caps := (source.asked.caps ||| s.capadd) &&& ~~~ s.capdel }, .ack (ackLines n s))) := by
  unfold Client.capReq
  dsimp only
  rw [if_neg harg, strlcpy_of_lt (by unfold bufsize; omega), hloop]
  rfl

/-- A request is answered as it is carried out when a word of it is not known, when nothing
    is removed, or when its last word removes. -/
theorem honest_iff (n : Names) (source : Client) (arg : CStr) (hlen : arg.bytes.length ≤ 510) :
    Honest n source arg.bytes ↔ RemovesLast arg.bytes := by
  have hnoNul : ∀ w ∈ words arg.bytes, NoNul w := fun w hw h0 => arg.noNul (words_subset arg.bytes w hw h0)
  by_cases harg : arg.bytes = []
  · rw [harg]
    exact iff_of_true ⟨source.asked, .nothing, rfl, source.asked_caps⟩
      (Or.inr (Or.inl fun w hw => absurd hw List.not_mem_nil))
  · have hroom : room (words arg.bytes) ≤ 512 := Nat.le_trans (room_words_le arg.bytes) (by omega)
    obtain ⟨s, finished, hloop, hstop, hdone⟩ := capReqLoop_spec (length_buf_le n) (arg.bytes.length + 1)
      (Nat.lt_succ_self _) arg.noNul (kept_start n.buf.length (length_buf_le n) hroom)
    have hreq := source.capReq_of_loop harg hlen hloop
    cases finished with
    | false => exact iff_of_true ⟨_, _, hreq, source.asked_caps⟩ (Or.inl (hstop rfl))
    | true =>
      obtain ⟨ts₀, ts₁, hkept, hmap⟩ := hdone rfl
      obtain ⟨hts, hneg⟩ := forall_of_map_eq hmap hnoNul
      have hlisted := hkept.listed hts
      have hknown : ¬ ∃ w ∈ words arg.bytes, readToken w = none := by
        rintro ⟨w, hw, hread⟩
        have hmem : none ∈ (ts₀ ++ ts₁).map some := by
          rw [hmap, List.nil_append, List.map_nil, List.nil_append]
          exact List.mem_map.mpr ⟨w, hw, hread⟩
        obtain ⟨t, -, ht⟩ := List.mem_map.mp hmem
        cases ht
      calc Honest n source arg.bytes
          ↔ (source.asked.caps ||| s.capadd) &&& ~~~ s.capdel = (listed (ackLines n s)).foldl applyToken source.caps ∧
              (words arg.bytes).map readToken = listed (ackLines n s) := by
            constructor
            · rintro ⟨source', reply, hreply, h⟩
              obtain ⟨rfl, rfl⟩ := Prod.mk.inj (Option.some.inj (hreq.symm.trans hreply))
              exact h
            · exact fun h => ⟨_, _, hreq, h⟩
        _ ↔ (source.caps ||| adds (ts₀ ++ ts₁)) &&& ~~~ dels (ts₀ ++ ts₁)
              = ((ts₀ ++ ts₁).map some).foldl applyToken source.caps := by
            rw [hlisted, hkept.capadd, hkept.capdel, source.asked_caps]
            exact and_iff_left hmap.symm
        _ ↔ (∀ t ∈ ts₀ ++ ts₁, t.1 = false) ∨ ∃ t, (ts₀ ++ ts₁).getLast? = some t ∧ t.1 = true :=
            applied_iff source.caps hts
        _ ↔ (∀ w ∈ words arg.bytes, w.head? ≠ some 45) ∨ ∃ w, (words arg.bytes).getLast? = some w ∧ w.head? = some 45 :=
            (removesLast_iff hneg).symm
        _ ↔ RemovesLast arg.bytes := (or_iff_right hknown).symm

/-- `-multi-prefix multi-prefix`. -/
def contradictory : CStr := ⟨45 :: multiPrefix.name ++ 32 :: multiPrefix.name, by decide⟩

theorem honest_iff_contradictory : contradictory.bytes.length ≤ 510 ∧
    (Honest ⟨[97], [98], by decide, by decide⟩ ⟨true, false, 0⟩ contradictory.bytes ↔ RemovesLast contradictory.bytes) :=
  ⟨by decide, honest_iff _ _ contradictory (by decide)⟩

/-- The client is told `-multi-prefix multi-prefix`, and does not have it. -/
theorem not_honest : ¬ Honest ⟨[97], [98], by decide, by decide⟩ ⟨true, false, 0⟩ contradictory.bytes := by
  have hreq : Client.capReq ⟨[97], [98], by decide, by decide⟩ ⟨true, false, 0⟩ contradictory.bytes =
      some (⟨true, false, 0⟩, .ack [([58, 97, 32, 67, 65, 80, 32, 98, 32, 65, 67, 75, 32, 58],
        contradictory.bytes ++ [32])]) := by decide
  rintro ⟨source', reply, hreply, h⟩
  obtain ⟨rfl, rfl⟩ := Prod.mk.inj (Option.some.inj (hreq.symm.trans hreply))
  -- applied one after the other, the words leave it set
  have hcaps : (listed [([58, 97, 32, 67, 65, 80, 32, 98, 32, 65, 67, 75, 32, 58], contradictory.bytes ++ [32])]).foldl
      applyToken 0 = 1 := by decide
  have hclear : (0 : BitVec 32) = 1 := h.1.trans hcaps
  exact absurd hclear (by decide)

end Bluebox.Cap
