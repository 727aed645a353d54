/-
  Bluebox.Glob.MatchEsc

  `match_esc` of `libratboxcore/match.c` against the language of masks with escapes.

  Rounds are read as those of `match`, with a backslash as a round of its own.  They go
  wrong at one place only, the end of the mask with more of the name: there the loop
  looks at bytes of the mask without knowing which of them are escaped.
-/
import Bluebox.Glob.EscEffort

namespace Bluebox.Glob

open Bluebox.Lib Bluebox.Lib.Glob

-- ============================================================================
-- Reading a mask
-- ============================================================================

/-- The atoms of a mask, without a backslash that is open at its end. -/
def atomsOf : Bool → Bytes → List Atom
  | _, [] => []
  | esc, b :: s =>
    if esc then escapedAtom b :: atomsOf false s
    else if b = backslash then atomsOf true s
    else plainAtom b :: atomsOf false s

/-- Whether a backslash is open at the end of a mask. -/
def openEnd : Bool → Bytes → Bool
  | esc, [] => esc
  | esc, b :: s => openEnd (!esc && b == backslash) s

/-- The tokens of a mask. -/
def toks (esc : Bool) (s : Bytes) : List (Token UInt8) := (atomsOf esc s).map Atom.token

section Reading

variable {esc : Bool} {b : UInt8} {s : Bytes}

theorem atomsOf_escaped (b : UInt8) (s : Bytes) :
    atomsOf true (b :: s) = escapedAtom b :: atomsOf false s := by
  rw [atomsOf, if_pos rfl]

theorem atomsOf_backslash (s : Bytes) : atomsOf false (backslash :: s) = atomsOf true s := by
  rw [atomsOf, if_neg Bool.false_ne_true, if_pos rfl]

theorem atomsOf_plain (h : b ≠ backslash) (s : Bytes) :
    atomsOf false (b :: s) = plainAtom b :: atomsOf false s := by
  rw [atomsOf, if_neg Bool.false_ne_true, if_neg h]

theorem toks_star (s : Bytes) : toks false (star :: s) = .any :: toks false s := by
  rw [toks, atomsOf_plain (by decide)]
  rfl

theorem readEsc_eq (s : Bytes) : ∀ esc,
    readEsc esc s = if openEnd esc s then none else some (atomsOf esc s) := by
  induction s with
  | nil =>
    intro esc
    cases esc <;> rfl
  | cons b s ih =>
    intro esc
    cases esc with
    | true =>
      rw [readEsc_escaped, ih, atomsOf_escaped]
      show _ = if openEnd false s then none else _
      cases openEnd false s <;> rfl
    | false =>
      by_cases hb : b = backslash
      · subst hb
        rw [readEsc_backslash, ih, atomsOf_backslash]
        rfl
      · rw [readEsc_plain hb, ih, atomsOf_plain hb]
        have hopen : openEnd false (b :: s) = openEnd false s := by
          rw [openEnd, beq_eq_false_iff_ne.mpr hb]
          rfl
        rw [hopen]
        cases openEnd false s <;> rfl

theorem inEscLang_iff (mask name : Bytes) :
    InEscLang mask name ↔ openEnd false mask = false ∧ Denotes (toks false mask) name := by
  unfold InEscLang
  rw [readEsc_eq]
  cases openEnd false mask with
  | true => simp
  | false => simp [toks]

/-- The comparison of `match_esc` is that of the atoms. -/
theorem token_plainAtom (hstar : b ≠ star) : (plainAtom b).token = .one (escMatch1 false b) := by
  unfold plainAtom
  rw [if_neg hstar]
  by_cases hq : b = quest
  · rw [if_pos hq, hq]
    rfl
  rw [if_neg hq]
  by_cases hl : b = 64
  · rw [if_pos hl, hl]
    rfl
  rw [if_neg hl]
  by_cases hd : b = 35
  · rw [if_pos hd, hd]
    rfl
  rw [if_neg hd]
  show Token.one _ = Token.one _
  congr 1
  funext a
  have hq' : ¬ b = 63 := hq
  unfold escMatch1
  rw [if_neg Bool.false_ne_true, if_neg hq', if_neg hl, if_neg hd]

theorem token_escapedAtom (b : UInt8) : (escapedAtom b).token = .one (escMatch1 true b) := by
  unfold escapedAtom
  by_cases hb : b = 115
  · rw [if_pos hb, hb]
    rfl
  · rw [if_neg hb]
    show Token.one _ = Token.one _
    congr 1
    funext a
    unfold escMatch1
    rw [if_pos rfl, if_neg hb]

theorem toks_cons (h : esc = false → b ≠ star ∧ b ≠ backslash) :
    toks esc (b :: s) = .one (escMatch1 esc b) :: toks false s := by
  cases esc with
  | true =>
    rw [toks, atomsOf_escaped, List.map_cons, token_escapedAtom]
    rfl
  | false =>
    obtain ⟨hstar, hback⟩ := h rfl
    rw [toks, atomsOf_plain hback, List.map_cons, token_plainAtom hstar]
    rfl

theorem openEnd_cons (h : esc = false → b ≠ backslash) : openEnd esc (b :: s) = openEnd false s := by
  rw [openEnd]
  cases esc with
  | true => rfl
  | false => rw [beq_eq_false_iff_ne.mpr (h rfl)]; rfl

theorem openEnd_append (s t : Bytes) : ∀ esc, openEnd esc (s ++ t) = openEnd (openEnd esc s) t := by
  induction s with
  | nil => exact fun _ => rfl
  | cons b s ih => exact fun esc => ih _

theorem openEnd_star (s : Bytes) : openEnd false (star :: s) = openEnd false s := rfl

theorem marks_cons_star (s : Bytes) : marks false (star :: s) = (false, star) :: marks false s := rfl

theorem map_snd_marks (s : Bytes) : ∀ esc, (marks esc s).map Prod.snd = s := by
  induction s with
  | nil => exact fun _ => rfl
  | cons b s ih =>
    intro esc
    rw [marks, List.map_cons, ih]

end Reading

-- ============================================================================
-- Rounds
-- ============================================================================

/-- What falls with every round. -/
def escRank (c : EscCursor) : Nat := c.na.length * (c.ma.length + 1) + c.m.length

/-- Where the cursor is in the mask; `esc` says that a backslash is open there. -/
structure EscReads (mask : Bytes) (esc : Bool) (c : EscCursor) : Prop where
  place : ∃ first, c.ma = first ++ c.m ∧ openEnd false first = esc
  opens : openEnd false c.ma = openEnd false mask
  cut : ∃ skipped, marks false mask = skipped ++ marks false c.ma ∧ (c.wild = false → skipped = []) ∧
    (c.wild = true → skipped.getLast? = some (false, star) ∧ c.ma.head? ≠ some star ∧
      c.ma ≠ [backslash])

/-- The search for the mask and more behind it is exact. -/
def EscFinds (mask name : Bytes) (more : List (Token UInt8)) (esc : Bool) (c : EscCursor) : Prop :=
  Exact (toks false mask ++ more) name
    ⟨toks esc c.m ++ more, c.n, toks false c.ma ++ more, c.na, c.wild⟩

/-- What a round comes to, short of the end of the mask: the next cursor, with a round less to go
    if something can be found, or a verdict that nothing can. -/
inductive Moves (mask name : Bytes) (esc : Bool) (c : EscCursor) : Bool ⊕ EscCursor → Prop
  | next (c' : EscCursor) (quoted : c'.quote ≤ 2) (reads : EscReads mask (c'.quote == 1) c')
      (less : escRank c' < escRank c)
      (finds : ∀ more, EscFinds mask name more esc c → EscFinds mask name more (c'.quote == 1) c')
      (count : ∀ more, EscFinds mask name more esc c → Denotes (toks false mask ++ more) name →
        toGo esc c = toGo (c'.quote == 1) c' + 1) :
      Moves mask name esc c (.inr c')
  | fails (none : ∀ more, EscFinds mask name more esc c → ¬ Denotes (toks false mask ++ more) name) :
      Moves mask name esc c (.inl false)

section Rounds

variable {mask name : Bytes} {esc : Bool} {c : EscCursor} {more : List (Token UInt8)}

theorem EscFinds.shorter (h : EscFinds mask name more esc c) : c.n.length ≤ c.na.length := by
  obtain ⟨tests, x, -, hwa, -⟩ := h.taken
  have hlen := congrArg List.length hwa
  rw [List.length_append] at hlen
  dsimp only at hlen
  omega

theorem advance_cons (a b : UInt8) (m n ma na : Bytes) (wild : Bool) (quote : Nat) :
    (⟨b :: m, a :: n, ma, na, wild, quote⟩ : EscCursor).advance =
      if escMatch1 (quote != 0) b a then .inr ⟨m, n, ma, na, wild, quote⟩
      else if !wild then .inl false
      else .inr ⟨ma, na.tail, ma, na.tail, wild, quote⟩ := rfl

/-- A piece that begins with a byte does not fit where there is none. -/
theorem hold_nil {piece : Bytes} {rest : List Bytes} (s : Bytes) : ∀ esc, pieces esc s = piece :: rest →
    (hold esc piece []).2 = none → ∃ test p, toks esc s = .one test :: p := by
  induction s generalizing piece with
  | nil =>
    intro esc hpieces hnone
    obtain ⟨rfl, -⟩ := List.cons.inj hpieces
    cases hnone
  | cons b s ih =>
    intro esc hpieces hnone
    by_cases hstar : esc = false ∧ b = star
    · rw [pieces, if_pos hstar] at hpieces
      obtain ⟨rfl, -⟩ := List.cons.inj hpieces
      cases hnone
    obtain ⟨piece', rest', hs⟩ := pieces_ne_nil s (!esc && b == backslash)
    rw [pieces, if_neg hstar, hs] at hpieces
    obtain ⟨rfl, rfl⟩ := List.cons.inj hpieces
    by_cases hback : esc = false ∧ b = backslash
    · obtain ⟨rfl, rfl⟩ := hback
      rw [hold, if_pos ⟨rfl, rfl⟩] at hnone
      rw [toks, atomsOf_backslash]
      exact ih true hs hnone
    · exact ⟨_, _, toks_cons fun he => ⟨fun hb => hstar ⟨he, hb⟩, fun hb => hback ⟨he, hb⟩⟩⟩

/-- Behind a star, where something can be found. -/
theorem EscFinds.place {ma w : Bytes} {quote : Nat} (h : EscFinds mask name more false ⟨ma, w, ma, w, true, quote⟩)
    (hd : Denotes (toks false mask ++ more) name) :
    toGo false ⟨ma, w, ma, w, true, quote⟩ = seekAll (pieces false ma) w + 1 := by
  refine toGo_place fun piece rest hpieces hw hnone => ?_
  subst hw
  obtain ⟨test, p, htoks⟩ := hold_nil ma false hpieces hnone
  unfold EscFinds at h
  dsimp only at h
  rw [htoks, List.cons_append] at h
  exact h.starved hd

/-- The comparison of a byte of the mask with one of the name. -/
theorem moves_compare (hr : EscReads mask esc c) (hfinds : EscFinds mask name [] esc c) (hm : c.m ≠ [])
    (hquote : c.quote = 0 ∧ esc = false ∧ c.m.head? ≠ some star ∧ c.m.head? ≠ some backslash ∨
      c.quote = 2 ∧ esc = true) :
    Moves mask name esc c (c.compare mask) := by
  obtain ⟨m, n, ma, na, wild, quote⟩ := c
  obtain ⟨b, m, rfl⟩ := List.exists_cons_of_ne_nil hm
  dsimp only at hquote
  have hplain : esc = false → b ≠ star ∧ b ≠ backslash := by
    rintro rfl
    rcases hquote with ⟨-, -, hstar, hback⟩ | ⟨-, hesc⟩
    · exact ⟨fun he => hstar (congrArg some he), fun he => hback (congrArg some he)⟩
    · cases hesc
  have hesc : (quote != 0) = esc := by
    rcases hquote with ⟨rfl, rfl, -⟩ | ⟨rfl, rfl⟩ <;> rfl
  have hnot : (quote == 1) = false := by
    rcases hquote with ⟨rfl, -⟩ | ⟨rfl, -⟩ <;> rfl
  have hle : quote ≤ 2 := by
    rcases hquote with ⟨rfl, -⟩ | ⟨rfl, -⟩ <;> decide
  have htoks : ∀ more, toks esc (b :: m) ++ more = .one (escMatch1 esc b) :: (toks false m ++ more) := by
    intro more
    rw [toks_cons hplain, List.cons_append]
  unfold EscCursor.compare
  dsimp only
  rw [if_neg (List.cons_ne_nil _ _)]
  cases n with
  | nil =>
    rw [if_pos rfl]
    have hfalse : (if quote ≠ 0 then Sum.inl false else
        Sum.inl ((b :: m).dropWhile (· == star)).isEmpty : Bool ⊕ EscCursor) = .inl false := by
      by_cases hzero : quote ≠ 0
      · rw [if_pos hzero]
      · have hb : b ≠ star := (hplain (by rw [← hesc]; simpa using hzero)).1
        rw [if_neg hzero, List.dropWhile_cons_of_neg (by simpa using hb)]
        rfl
    rw [hfalse]
    refine .fails fun more hf => ?_
    unfold EscFinds at hf
    rw [htoks] at hf
    exact hf.starved
  | cons a n =>
    rw [if_neg (List.cons_ne_nil _ _), advance_cons, hesc]
    by_cases htest : escMatch1 esc b a = true
    · rw [if_pos htest]
      obtain ⟨first, hfirst, hopen⟩ := hr.place
      refine .next _ hle ⟨⟨first ++ [b], ?_, ?_⟩, hr.opens, hr.cut⟩ (Nat.lt_succ_self _) ?_ fun _ _ _ => ?_
      · rw [List.append_assoc]
        exact hfirst
      · rw [openEnd_append, hopen, openEnd_cons fun he => (hplain he).2]
        exact hnot.symm
      · intro more hf
        unfold EscFinds at hf ⊢
        rw [htoks] at hf
        dsimp only
        rw [hnot]
        exact hf.take htest
      · dsimp only
        rw [hnot]
        exact toGo_take hplain htest quote
    · rw [if_neg htest]
      have hbad : ∀ more, ¬ Denotes (toks esc (b :: m) ++ more) (a :: n) := by
        intro more hd
        rw [htoks, denotes_one_cons] at hd
        exact htest hd.1
      cases wild with
      | false => exact .fails fun more hf hd => hbad more (hf.only.mp hd)
      | true =>
        have hshort := hfinds.shorter
        cases na with
        | nil => cases hshort
        | cons a' na =>
          have hback : ∀ more, EscFinds mask name more esc ⟨b :: m, a :: n, ma, a' :: na, true, quote⟩ →
              EscFinds mask name more false ⟨ma, na, ma, na, true, quote⟩ := fun more hf => hf.back (hbad more)
          refine .next _ hle ⟨⟨[], rfl, hnot.symm⟩, hr.opens, hr.cut⟩ ?_ ?_ fun more hf hd => ?_
          · dsimp only [escRank, List.tail_cons]
            rw [List.length_cons, Nat.succ_mul]
            omega
          · intro more hf
            dsimp only [List.tail_cons]
            rw [hnot]
            exact hback more hf
          · dsimp only [List.tail_cons]
            rw [hnot, toGo_miss hplain htest, (hback more hf).place hd]
            rfl

/-- Steps before a comparison that lose nothing. -/
theorem Moves.trans {d : EscCursor} {esc' : Bool} {r : Bool ⊕ EscCursor} (h : Moves mask name esc' d r)
    (hrank : escRank d ≤ escRank c)
    (hfinds : ∀ more, EscFinds mask name more esc c → EscFinds mask name more esc' d)
    (hcount : ∀ more, EscFinds mask name more esc c → Denotes (toks false mask ++ more) name →
      toGo esc c = toGo esc' d) :
    Moves mask name esc c r := by
  cases h with
  | next c' hle hreads hless hf hc =>
    exact .next c' hle hreads (Nat.lt_of_lt_of_le hless hrank) (fun more hmore => hf more (hfinds more hmore))
      fun more hmore hd => (hcount more hmore hd).trans (hc more (hfinds more hmore) hd)
  | fails hnone => exact .fails fun more hmore => hnone more (hfinds more hmore)

theorem toks_backslash (s : Bytes) : toks false (backslash :: s) = toks true s := by
  rw [toks, atomsOf_backslash]
  rfl

theorem round_quoted (h : c.quote = 1) : c.round mask = ({ c with quote := 2 } : EscCursor).compare mask := by
  have hnext : nextQuote c.quote = 2 := by rw [h]; rfl
  unfold EscCursor.round
  dsimp only
  rw [hnext, if_neg (fun h => absurd h.2 (by decide)), if_neg (fun h => absurd h.1 (by decide))]

theorem round_unquoted (h : nextQuote c.quote = 0) : c.round mask =
    if c.m.head? = some backslash then .inr { c with m := c.m.tail, quote := 1 }
    else if c.m.head? = some star then
      let m := c.m.dropWhile (· == star)
      if m.head? = some backslash then
        if m.tail = [] then .inl false
        else .inr { c with m := m.tail, ma := m, na := c.n, wild := true, quote := 1 }
      else ({ c with m := m, ma := m, na := c.n, wild := true, quote := 0 } : EscCursor).compare mask
    else ({ c with quote := 0 } : EscCursor).compare mask := by
  unfold EscCursor.round
  dsimp only
  rw [h]
  simp only [and_true, true_and]
  rfl

/-- Stars are skipped together. -/
theorem finds_dropStars {n : Bytes} (m : Bytes)
    (h : Exact (toks false mask ++ more) name ⟨toks false m ++ more, n, toks false m ++ more, n, true⟩) :
    Exact (toks false mask ++ more) name ⟨toks false (m.dropWhile (· == star)) ++ more, n,
      toks false (m.dropWhile (· == star)) ++ more, n, true⟩ := by
  induction m with
  | nil => exact h
  | cons b m ih =>
    by_cases hb : b = star
    · subst hb
      rw [dropStars_cons]
      rw [toks_star, List.cons_append] at h
      exact ih h.skip
    · rw [List.dropWhile_cons_of_neg (by simpa using hb)]
      exact h

theorem openEnd_dropStars (m : Bytes) : openEnd false (m.dropWhile (· == star)) = openEnd false m := by
  induction m with
  | nil => rfl
  | cons b m ih =>
    by_cases hb : b = star
    · subst hb
      rw [dropStars_cons, ih]
      rfl
    · rw [List.dropWhile_cons_of_neg (by simpa using hb)]

/-- The marks of the stars that are skipped. -/
theorem marks_dropStars (m : Bytes) : ∃ stars, marks false m = stars ++ marks false (m.dropWhile (· == star)) ∧
    ∀ x ∈ stars, x = (false, star) := by
  induction m with
  | nil => exact ⟨[], rfl, fun x hx => absurd hx List.not_mem_nil⟩
  | cons b m ih =>
    by_cases hb : b = star
    · subst hb
      obtain ⟨stars, hstars, hall⟩ := ih
      refine ⟨(false, star) :: stars, ?_, fun x hx => ?_⟩
      · rw [marks_cons_star, dropStars_cons, hstars]
        rfl
      · rcases List.mem_cons.mp hx with rfl | hx
        · rfl
        · exact hall x hx
    · exact ⟨[], by rw [List.dropWhile_cons_of_neg (by simpa using hb)]; rfl,
        fun x hx => absurd hx List.not_mem_nil⟩

theorem last_of_stars {stars : List (Bool × UInt8)} (hall : ∀ x ∈ stars, x = (false, star)) :
    ∃ front, (false, star) :: stars = front ++ [(false, star)] := by
  rcases List.eq_nil_or_concat stars with rfl | ⟨front, x, rfl⟩
  · exact ⟨[], rfl⟩
  · rw [List.concat_eq_append] at hall ⊢
    obtain rfl := hall x (List.mem_append_right _ (List.mem_singleton_self _))
    exact ⟨(false, star) :: front, rfl⟩

/-- The marks from the cursor on end those from the last star on, if no backslash is open. -/
theorem marks_place {first m : Bytes} : ∀ esc, openEnd esc first = false →
    ∃ skipped, marks esc (first ++ m) = skipped ++ marks false m := by
  induction first with
  | nil =>
    intro esc hopen
    obtain rfl : esc = false := hopen
    exact ⟨[], rfl⟩
  | cons b first ih =>
    intro esc hopen
    obtain ⟨skipped, hskipped⟩ := ih _ hopen
    exact ⟨(esc, b) :: skipped, by rw [List.cons_append, marks, hskipped]; rfl⟩

/-- Behind stars, before a backslash is looked at. -/
theorem skip_reads {m m1 : Bytes} (hr : EscReads mask false c) (hm : c.m = star :: m)
    (hm1 : m.dropWhile (· == star) = m1) (hne : m1 ≠ [backslash]) (quote : Nat) :
    EscReads mask false ⟨m1, c.n, m1, c.n, true, quote⟩ := by
  obtain ⟨first, hfirst, hopen⟩ := hr.place
  obtain ⟨skipped, hmask, -⟩ := hr.cut
  obtain ⟨before, hbefore⟩ := marks_place (m := c.m) false hopen
  obtain ⟨stars, hstars, hall⟩ := marks_dropStars m
  rw [hm1] at hstars
  refine ⟨⟨[], rfl, rfl⟩, ?_, ⟨skipped ++ before ++ (false, star) :: stars, ?_, fun h => Bool.noConfusion h,
    fun _ => ⟨?_, hm1 ▸ head_dropStars m, hne⟩⟩⟩
  · rw [← hr.opens, hfirst, openEnd_append, hopen, hm, openEnd_star, ← openEnd_dropStars m, hm1]
  · rw [hmask, hfirst, hbefore, hm, marks_cons_star, hstars]
    simp only [List.append_assoc, List.cons_append]
  · obtain ⟨front, hfront⟩ := last_of_stars hall
    rw [hfront, ← List.append_assoc]
    exact List.getLast?_concat

/-- What a round does: one that is not at the end of the mask moves on or fails; at the end it
    compares what is left of the name.  A star with an open backslash behind it makes no match. -/
def RoundDoes (mask name : Bytes) (esc : Bool) (c : EscCursor) (r : Bool ⊕ EscCursor) : Prop :=
  Moves mask name esc c r ∨
  r = .inl false ∧ (∃ before, marks false mask = before ++ [(false, star)] ++ [(false, backslash)]) ∨
  ∃ d, r = d.compare mask ∧ d.m = [] ∧ (d.quote = 0 ∨ d.quote = 2) ∧
    EscReads mask (d.quote != 0) d ∧ escRank d ≤ escRank c ∧
    ∀ more, EscFinds mask name more esc c → EscFinds mask name more (d.quote != 0) d ∧
      (Denotes (toks false mask ++ more) name → toGo esc c = 1)

/-- The byte behind a backslash. -/
theorem round_behind (hr : EscReads mask true c) (hfinds : EscFinds mask name [] true c) :
    RoundDoes mask name true c (({ c with quote := 2 } : EscCursor).compare mask) := by
  have hr' : EscReads mask true { c with quote := 2 } := ⟨hr.place, hr.opens, hr.cut⟩
  by_cases hm : c.m = []
  · exact Or.inr (Or.inr ⟨_, rfl, hm, Or.inr rfl, hr', Nat.le_refl _, fun _ h => ⟨h, fun _ => toGo_end hm⟩⟩)
  · exact Or.inl ((moves_compare hr' hfinds hm (Or.inr ⟨rfl, rfl⟩)).trans (Nat.le_refl _) (fun _ h => h)
      fun _ _ _ => rfl)

/-- A backslash. -/
theorem round_backslash (hr : EscReads mask false c) {m : Bytes} (hm : c.m = backslash :: m) :
    Moves mask name false c (.inr { c with m := m, quote := 1 }) := by
  obtain ⟨first, hfirst, hopen⟩ := hr.place
  refine .next _ (Nat.le_succ 1) ⟨⟨first ++ [backslash], ?_, ?_⟩, hr.opens, hr.cut⟩ ?_ ?_
    fun _ _ _ => toGo_backslash hm 1
  · rw [hfirst, hm, List.append_assoc]
    rfl
  · rw [openEnd_append, hopen]
    rfl
  · dsimp only [escRank]
    rw [hm, List.length_cons]
    omega
  · intro more hf
    unfold EscFinds at hf ⊢
    rw [hm, toks_backslash] at hf
    exact hf

/-- A byte that is neither a backslash nor a star. -/
theorem round_byte (hr : EscReads mask false c) (hfinds : EscFinds mask name [] false c)
    (hback : c.m.head? ≠ some backslash) (hstar : c.m.head? ≠ some star) :
    RoundDoes mask name false c (({ c with quote := 0 } : EscCursor).compare mask) := by
  have hreads : EscReads mask false { c with quote := 0 } := ⟨hr.place, hr.opens, hr.cut⟩
  by_cases hnil : c.m = []
  · exact Or.inr (Or.inr ⟨_, rfl, hnil, Or.inl rfl, hreads, Nat.le_refl _,
      fun _ h => ⟨h, fun _ => toGo_end hnil⟩⟩)
  · exact Or.inl ((moves_compare hreads hfinds hnil (Or.inl ⟨rfl, rfl, hstar, hback⟩)).trans
      (Nat.le_refl _) (fun _ h => h) fun _ _ _ => rfl)

section Stars

variable {m m1 : Bytes}

/-- Behind stars the search is placed anew. -/
theorem EscFinds.behind_stars (hm : c.m = star :: m) (hm1 : m.dropWhile (· == star) = m1)
    (h : EscFinds mask name more false c) :
    Exact (toks false mask ++ more) name ⟨toks false m1 ++ more, c.n, toks false m1 ++ more, c.n, true⟩ := by
  unfold EscFinds at h
  rw [hm, toks_star, List.cons_append] at h
  have hdrop := finds_dropStars m h.skip
  rwa [hm1] at hdrop

/-- What there is to go is counted from there. -/
theorem toGo_behind_stars (hm : c.m = star :: m) (hm1 : m.dropWhile (· == star) = m1)
    (h : EscFinds mask name more false c) (hd : Denotes (toks false mask ++ more) name) :
    toGo false c = toGo false ⟨m1, c.n, m1, c.n, true, 0⟩ := by
  have hplace : EscFinds mask name more false ⟨m1, c.n, m1, c.n, true, 0⟩ := (h.behind_stars hm hm1 :)
  rw [hplace.place hd, toGo_star hm, hm1]

theorem escRank_behind_stars (hr : EscReads mask false c) (hshort : c.n.length ≤ c.na.length)
    (hm : c.m = star :: m) (hm1 : m.dropWhile (· == star) = m1) {k : Nat} (hk : k ≤ m1.length) :
    c.n.length * (m1.length + 1) + k < escRank c := by
  obtain ⟨first, hfirst, -⟩ := hr.place
  have hlen1 : m1.length < c.m.length := by
    rw [← hm1, hm, List.length_cons]
    exact Nat.lt_succ_of_le (List.length_dropWhile_le _ _)
  have hlenma : c.m.length ≤ c.ma.length := by
    rw [hfirst, List.length_append]
    omega
  exact Nat.add_lt_add_of_le_of_lt (Nat.mul_le_mul hshort (by omega)) (by omega)

/-- Nothing but a backslash stands behind the stars: the mask ends with a star and it. -/
theorem marks_lone (hr : EscReads mask false c) (hm : c.m = star :: m)
    (hm1 : m.dropWhile (· == star) = [backslash]) :
    ∃ before, marks false mask = before ++ [(false, star)] ++ [(false, backslash)] := by
  obtain ⟨first, hfirst, hopen⟩ := hr.place
  obtain ⟨skipped, hmask, -⟩ := hr.cut
  obtain ⟨before, hbefore⟩ := marks_place (m := c.m) false hopen
  obtain ⟨stars, hstars, hall⟩ := marks_dropStars m
  obtain ⟨front, hfront⟩ := last_of_stars hall
  rw [hm1] at hstars
  refine ⟨skipped ++ (before ++ front), ?_⟩
  rw [hmask, hfirst, hbefore, hm, marks_cons_star, hstars, ← List.cons_append, hfront]
  simp only [List.append_assoc]
  rfl

/-- Stars with a backslash behind them are passed together with it. -/
theorem round_stars_backslash (hr : EscReads mask false c) (hfinds : EscFinds mask name [] false c)
    (hm : c.m = star :: m) (hm1 : m.dropWhile (· == star) = backslash :: m1) (hne : m1 ≠ []) :
    Moves mask name false c (.inr { c with m := m1, ma := backslash :: m1, na := c.n, wild := true, quote := 1 }) := by
  have hreads := skip_reads hr hm hm1 (fun he => hne (List.cons.inj he).2) 1
  refine .next _ (Nat.le_succ 1) ⟨⟨[backslash], rfl, rfl⟩, hreads.opens, hreads.cut⟩ ?_ ?_ fun more hf hd =>
    (toGo_behind_stars hm hm1 hf hd).trans (toGo_backslash rfl 1)
  · exact escRank_behind_stars hr hfinds.shorter hm hm1 (Nat.le_succ _)
  · intro more hf
    have hf1 := hf.behind_stars hm hm1
    rw [toks_backslash] at hf1
    unfold EscFinds
    dsimp only
    rw [toks_backslash]
    exact hf1

/-- Stars with another byte, or the end of the mask, behind them. -/
theorem round_stars_byte (hr : EscReads mask false c) (hfinds : EscFinds mask name [] false c)
    (hm : c.m = star :: m) (hm1 : m.dropWhile (· == star) = m1) (hback : m1.head? ≠ some backslash) :
    RoundDoes mask name false c
      (({ c with m := m1, ma := m1, na := c.n, wild := true, quote := 0 } : EscCursor).compare mask) := by
  have hne : m1 ≠ [backslash] := fun he => hback (by rw [he]; rfl)
  have hreads := skip_reads hr hm hm1 hne 0
  have hless : escRank ⟨m1, c.n, m1, c.n, true, 0⟩ ≤ escRank c :=
    Nat.le_of_lt (escRank_behind_stars hr hfinds.shorter hm hm1 (Nat.le_refl _))
  by_cases hnil : m1 = []
  · exact Or.inr (Or.inr ⟨_, rfl, hnil, Or.inl rfl, hreads, hless, fun more hf =>
      ⟨(hf.behind_stars hm hm1 :), fun hd => (toGo_behind_stars hm hm1 hf hd).trans (toGo_end hnil)⟩⟩)
  · refine Or.inl (Moves.trans ?_ hless (fun _ hf => (hf.behind_stars hm hm1 :))
      fun _ hf => toGo_behind_stars hm hm1 hf)
    exact moves_compare hreads (hfinds.behind_stars hm hm1 :) hnil
      (Or.inl ⟨rfl, rfl, hm1 ▸ head_dropStars m, hback⟩)

end Stars

theorem round_cases (hr : EscReads mask (c.quote == 1) c) (hq : c.quote ≤ 2)
    (hfinds : EscFinds mask name [] (c.quote == 1) c) :
    RoundDoes mask name (c.quote == 1) c (c.round mask) := by
  by_cases hquote : c.quote = 1
  · have hesc : (c.quote == 1) = true := by rw [hquote]; rfl
    rw [round_quoted hquote, hesc]
    rw [hesc] at hr hfinds
    exact round_behind hr hfinds
  have hesc : (c.quote == 1) = false := beq_eq_false_iff_ne.mpr hquote
  have hnext : nextQuote c.quote = 0 := by
    have hcases : c.quote = 0 ∨ c.quote = 2 := by omega
    rcases hcases with h | h <;> rw [h] <;> rfl
  rw [round_unquoted hnext, hesc]
  rw [hesc] at hr hfinds
  by_cases hback : c.m.head? = some backslash
  · obtain ⟨m, hm⟩ : ∃ m, c.m = backslash :: m := List.head?_eq_some_iff.mp hback
    rw [if_pos hback, hm, List.tail_cons]
    exact Or.inl (round_backslash hr hm)
  rw [if_neg hback]
  by_cases hstar : c.m.head? = some star
  · rw [if_pos hstar]
    obtain ⟨m, hm⟩ : ∃ m, c.m = star :: m := List.head?_eq_some_iff.mp hstar
    obtain ⟨m1, hm1⟩ : ∃ m1, m.dropWhile (· == star) = m1 := ⟨_, rfl⟩
    dsimp only
    rw [hm, dropStars_cons, hm1]
    by_cases hback1 : m1.head? = some backslash
    · rw [if_pos hback1]
      obtain ⟨m2, rfl⟩ : ∃ m2, m1 = backslash :: m2 := List.head?_eq_some_iff.mp hback1
      rw [List.tail_cons]
      by_cases hm2 : m2 = []
      · subst hm2
        exact Or.inr (Or.inl ⟨if_pos rfl, marks_lone hr hm hm1⟩)
      · rw [if_neg hm2]
        exact Or.inl (round_stars_backslash hr hfinds hm hm1 hm2)
    · rw [if_neg hback1]
      exact round_stars_byte hr hfinds hm hm1 hback1
  · rw [if_neg hstar]
    exact round_byte hr hfinds hback hstar

end Rounds

-- ============================================================================
-- The end of a mask
-- ============================================================================

/-- The mask ends in an escaped star, with question marks behind it or not. -/
def FakeStar (mask : Bytes) : Prop :=
  ((marks false mask).rdropWhile fun x => x.2 == quest).getLast? = some (true, star)

/-- A backslash follows the last star. -/
def EscapeFirst (mask : Bytes) : Prop :=
  (false, star) ∈ marks false mask ∧
    ((marks false mask).rtakeWhile fun x => x != (false, star)).head? = some (false, backslash)

section End

variable {mask name : Bytes} {esc : Bool} {d : EscCursor}

theorem mem_toks_of_mark (s : Bytes) : ∀ esc, (false, star) ∈ marks esc s → Token.any ∈ toks esc s := by
  induction s with
  | nil => exact fun _ h => absurd h List.not_mem_nil
  | cons b s ih =>
    intro esc h
    rw [marks] at h
    rcases List.mem_cons.mp h with h | h
    · obtain ⟨rfl, rfl⟩ := Prod.mk.inj h
      rw [toks_star]
      exact List.mem_cons_self
    · cases esc with
      | true =>
        rw [toks, atomsOf_escaped, List.map_cons]
        exact List.mem_cons_of_mem _ (ih false h)
      | false =>
        by_cases hb : b = backslash
        · subst hb
          rw [toks_backslash]
          exact ih true h
        · rw [beq_eq_false_iff_ne.mpr hb] at h
          rw [toks, atomsOf_plain hb, List.map_cons]
          exact List.mem_cons_of_mem _ (ih false h)

/-- Question marks without a backslash are tests that cannot fail. -/
theorem toks_of_quests (s : Bytes) (h : ∀ x ∈ marks false s, x.2 = quest) :
    ∀ t ∈ toks false s, ∃ test, t = .one test ∧ ∀ a, test a = true := by
  induction s with
  | nil => exact fun t ht => absurd ht List.not_mem_nil
  | cons b s ih =>
    obtain rfl : b = quest := h (false, b) List.mem_cons_self
    intro t ht
    rw [toks, atomsOf_plain (by decide), List.map_cons] at ht
    rcases List.mem_cons.mp ht with rfl | ht
    · exact ⟨_, rfl, fun _ => rfl⟩
    · exact ih (fun x hx => h x (List.mem_cons_of_mem _ hx)) t ht

/-- At the end of the mask there is no star behind the place to come back to. -/
theorem no_star_behind (hm : d.m = []) (hfinds : EscFinds mask name [] esc d) :
    (false, star) ∉ marks false d.ma := by
  intro hmem
  obtain ⟨tests, x, hpa, -⟩ := hfinds.taken
  dsimp only at hpa
  have hany := mem_toks_of_mark d.ma false hmem
  rw [hm, List.append_nil] at hpa
  rw [hpa, toks, atomsOf, List.map_nil, List.append_nil, List.append_nil] at hany
  obtain ⟨test, -, heq⟩ := List.mem_map.mp hany
  cases heq

theorem rdropWhile_marks (mask : Bytes) : mask.rdropWhile (· == quest) =
    ((marks false mask).rdropWhile fun x => x.2 == quest).map Prod.snd := by
  have hmask := map_snd_marks mask false
  conv_lhs => rw [← hmask]
  unfold List.rdropWhile
  rw [← List.map_reverse, List.dropWhile_map, List.map_reverse]
  rfl

/-- The test for a star at the end of the mask is right, but for an escaped one. -/
theorem denotes_of_endsInStar (hr : EscReads mask esc d) (hfinds : EscFinds mask name [] esc d)
    (hm : d.m = []) (hends : endsInStar mask = true) (hfake : ¬ FakeStar mask) :
    Denotes (toks false mask) name := by
  have hno := no_star_behind hm hfinds
  obtain ⟨skipped, hmask, hfirst, -⟩ := hr.cut
  obtain ⟨x, hx⟩ : ∃ x, ((marks false mask).rdropWhile fun x => x.2 == quest).getLast? = some x ∧
      x.2 = star := by
    have hlast : (mask.rdropWhile (· == quest)).getLast? = some star :=
      eq_of_beq (Bool.and_eq_true_iff.mp hends).1
    rw [rdropWhile_marks, List.getLast?_map] at hlast
    obtain ⟨x, hx, hstar⟩ := Option.map_eq_some_iff.mp hlast
    exact ⟨x, hx, hstar⟩
  obtain rfl : x = (false, star) := by
    obtain ⟨e, b⟩ := x
    obtain rfl : b = star := hx.2
    cases e with
    | true => exact absurd hx.1 hfake
    | false => rfl
  obtain ⟨m, n, ma, na, wild, quote⟩ := d
  dsimp only at hm hno hmask hfirst
  subst hm
  cases wild with
  | true =>
    rw [hmask] at hx
    have hall := forall_of_rdropWhile hx.1 hno
    have hexact : Exact (toks false mask) name ⟨[], n, toks false ma, na, true⟩ := by
      have h := hfinds
      unfold EscFinds at h
      rw [List.append_nil, List.append_nil, List.append_nil] at h
      exact h
    exact hexact.trailing (toks_of_quests ma fun x hx => eq_of_beq (hall x hx))
  | false =>
    have hmem : (false, star) ∈ marks false mask :=
      (List.rdropWhile_prefix _ _).subset (List.mem_of_getLast? hx.1)
    rw [hmask, hfirst rfl] at hmem
    exact absurd hmem hno

theorem endsInStar_of_fakeStar (h : FakeStar mask) : endsInStar mask = true := by
  have hlast : (mask.rdropWhile (· == quest)).getLast? = some star := by
    rw [rdropWhile_marks, List.getLast?_map, h]
    rfl
  have hlong : 1 < (mask.rdropWhile (· == quest)).length := by
    rw [rdropWhile_marks, List.length_map]
    by_contra hshort
    -- the first mark of a mask is not an escaped one
    obtain ⟨front, hfront⟩ := List.getLast?_eq_some_iff.mp h
    have hnil : front = [] := by
      rw [hfront, List.length_append, List.length_singleton] at hshort
      exact List.length_eq_zero_iff.mp (by omega)
    obtain ⟨rest, hrest⟩ := List.rdropWhile_prefix (fun x : Bool × UInt8 => x.2 == quest) (marks false mask)
    rw [hfront, hnil] at hrest
    cases mask with
    | nil => cases hrest
    | cons b s => cases (Prod.mk.inj (List.cons.inj hrest).1).1
  unfold endsInStar
  dsimp only
  rw [hlast, decide_eq_true hlong]
  rfl

/-- What the loop comes back to, where no backslash follows the last star. -/
theorem comeback (hne : mask ≠ [star]) (hr : EscReads mask esc d) (hfinds : EscFinds mask name [] esc d)
    (hm : d.m = []) (hends : endsInStar mask = false) (hesc : ¬ EscapeFirst mask) (hwild : d.wild = true) :
    d.ma ≠ [] ∧ d.ma.head? ≠ some star ∧ d.ma.head? ≠ some backslash := by
  have hno := no_star_behind hm hfinds
  obtain ⟨skipped, hmask, -, hcut⟩ := hr.cut
  obtain ⟨hlast, hhead, -⟩ := hcut hwild
  obtain ⟨before, hbefore⟩ := List.getLast?_eq_some_iff.mp hlast
  refine ⟨?_, hhead, ?_⟩
  · intro hnil
    have hbytes := congrArg (List.map Prod.snd) hmask
    rw [hnil, hbefore, map_snd_marks, marks, List.append_nil, List.map_append] at hbytes
    rw [endsInStar_of_getLast (by rw [hbytes]; exact List.getLast?_concat) hne] at hends
    cases hends
  · intro hback
    refine hesc ⟨?_, ?_⟩
    · rw [hmask, hbefore]
      exact List.mem_append_left _ (List.mem_append_right _ (List.mem_singleton_self _))
    · have htake : (marks false mask).rtakeWhile (fun x => x != (false, star)) = marks false d.ma := by
        have hall : ∀ x ∈ (marks false d.ma).reverse, (x != (false, star)) = true := by
          intro x hx
          rw [bne_iff_ne]
          rintro rfl
          exact hno (List.mem_reverse.mp hx)
        rw [hmask, hbefore]
        unfold List.rtakeWhile
        rw [List.reverse_append, List.takeWhile_append_of_pos hall, List.reverse_append]
        simp
      rw [htake]
      obtain ⟨s, hs⟩ : ∃ s, d.ma = backslash :: s := List.head?_eq_some_iff.mp hback
      rw [hs]
      rfl

end End

-- ============================================================================
-- Runs
-- ============================================================================

/-- A part of the name that is not all of it is in the language of the mask. -/
def SplitsName (mask name : Bytes) : Prop := ∃ w u, name = w ++ u ∧ u ≠ [] ∧ InEscLang mask w

/-- The end of the mask is read as it is meant, for a name, as far as the rounds last. -/
structure Legible (mask name : Bytes) : Prop where
  star : FakeStar mask → SplitsName mask name → escEffort mask name ≤ matchMaxCalls → InEscLang mask name
  escape : EscapeFirst mask → ¬ FakeStar mask → SplitsName mask name → matchMaxCalls < escEffort mask name
  lone : ∀ body, mask = body ++ [backslash] → openEnd false body = false → InEscLang body name →
    escEffort mask name ≤ matchMaxCalls →
      SplitsName body name ∨ (marks false body).getLast? = some (false, Bluebox.star)

/-- The same, for as many rounds as it takes. -/
structure Clear (mask name : Bytes) : Prop where
  star : FakeStar mask → SplitsName mask name → InEscLang mask name
  escape : EscapeFirst mask → ¬ FakeStar mask → ¬ SplitsName mask name
  lone : ∀ body, mask = body ++ [backslash] → openEnd false body = false → InEscLang body name →
    SplitsName body name ∨ (marks false body).getLast? = some (false, Bluebox.star)

theorem Legible.clear {mask name : Bytes} (h : Legible mask name)
    (hsplit : SplitsName mask name → escEffort mask name ≤ matchMaxCalls)
    (hlone : ∀ body, mask = body ++ [backslash] → openEnd false body = false → InEscLang body name →
      escEffort mask name ≤ matchMaxCalls) : Clear mask name where
  star := fun hfake hs => h.star hfake hs (hsplit hs)
  escape := fun hesc hfake hs => absurd (h.escape hesc hfake hs) (Nat.not_lt.mpr (hsplit hs))
  lone := fun body hmask hbody hlang => h.lone body hmask hbody hlang (hlone body hmask hbody hlang)

section Runs

variable {mask name : Bytes} {c d : EscCursor} {esc : Bool}

/-- One more byte and any string. -/
def further : List (Token UInt8) := [.one fun _ => true, .any]

theorem denotes_further (p : List (Token UInt8)) (name : Bytes) :
    Denotes (p ++ further) name ↔ ∃ w u, name = w ++ u ∧ u ≠ [] ∧ Denotes p w := by
  rw [denotes_append]
  constructor
  · rintro ⟨w, u, rfl, hw, a, v, rfl, -⟩
    exact ⟨w, a :: v, rfl, List.cons_ne_nil _ _, hw⟩
  · rintro ⟨w, u, rfl, hu, hw⟩
    obtain ⟨a, v, rfl⟩ := List.exists_cons_of_ne_nil hu
    exact ⟨w, a :: v, rfl, hw, a, v, rfl, rfl, [], List.nil_suffix, rfl⟩

theorem splitsName_iff (hopen : openEnd false mask = false) :
    SplitsName mask name ↔ Denotes (toks false mask ++ further) name := by
  rw [denotes_further]
  simp only [SplitsName, inEscLang_iff, hopen, true_and]

/-- A mask with an open backslash is a body and that backslash. -/
theorem exists_body (h : openEnd false mask = true) : ∃ body, mask = body ++ [backslash] ∧
    openEnd false body = false ∧ toks false body = toks false mask := by
  obtain ⟨body, b, rfl⟩ : ∃ body b, mask = body ++ [b] := by
    rcases List.eq_nil_or_concat mask with rfl | ⟨body, b, rfl⟩
    · cases h
    · exact ⟨body, b, List.concat_eq_append⟩
  rw [openEnd_append] at h
  have hbits : openEnd false body = false ∧ b = backslash := by
    cases hbody : openEnd false body with
    | true =>
      rw [hbody] at h
      cases h
    | false =>
      rw [hbody] at h
      refine ⟨rfl, ?_⟩
      simpa [openEnd] using h
  obtain ⟨hbody, rfl⟩ := hbits
  refine ⟨body, rfl, hbody, ?_⟩
  have hatoms : ∀ esc, openEnd esc body = false → atomsOf esc (body ++ [backslash]) = atomsOf esc body := by
    clear h hbody
    induction body with
    | nil =>
      intro esc hesc
      obtain rfl : esc = false := hesc
      rfl
    | cons b body ih =>
      intro esc hesc
      cases esc with
      | true => rw [List.cons_append, atomsOf_escaped, atomsOf_escaped, ih false hesc]
      | false =>
        by_cases hb : b = backslash
        · subst hb
          rw [List.cons_append, atomsOf_backslash, atomsOf_backslash, ih true hesc]
        · rw [openEnd_cons fun _ => hb] at hesc
          rw [List.cons_append, atomsOf_plain hb, atomsOf_plain hb, ih false hesc]
  rw [toks, toks, hatoms false hbody]

theorem marks_concat (s : Bytes) : ∀ esc, openEnd esc s = false →
    marks esc (s ++ [backslash]) = marks esc s ++ [(false, backslash)] := by
  induction s with
  | nil =>
    intro esc hesc
    obtain rfl : esc = false := hesc
    rfl
  | cons b s ih =>
    intro esc hesc
    rw [List.cons_append, marks, marks, ih _ hesc, List.cons_append]

/-- A mask with these marks at its end has an open backslash there. -/
theorem openEnd_of_marks {l : List (Bool × UInt8)} (h : marks false mask = l ++ [(false, backslash)]) :
    openEnd false mask = true := by
  have hlast : ∀ (s : Bytes) (esc : Bool) (l : List (Bool × UInt8)),
      marks esc s = l ++ [(false, backslash)] → openEnd esc s = true := by
    intro s
    induction s with
    | nil =>
      intro esc l h
      exact absurd h.symm (by simp [marks])
    | cons b s ih =>
      intro esc l h
      rw [marks] at h
      cases l with
      | nil =>
        obtain ⟨hb, hs⟩ := List.cons.inj h
        obtain ⟨rfl, rfl⟩ := Prod.mk.inj hb
        have hnil : s = [] := by
          have hbytes := map_snd_marks s true
          rw [show marks true s = [] from hs] at hbytes
          exact hbytes.symm
        rw [hnil]
        rfl
      | cons x l => exact ih _ l (List.cons.inj h).2
  exact hlast mask false l h

/-- At the end of the mask a backslash is open if and only if it is at the end of all. -/
theorem openEnd_at_end (hr : EscReads mask esc d) (hm : d.m = []) : openEnd false mask = esc := by
  obtain ⟨first, hfirst, hopen⟩ := hr.place
  rw [hm, List.append_nil] at hfirst
  rw [← hr.opens, hfirst, hopen]

/-- Both ends are reached with a backslash open: the mask is a body that is matched. -/
theorem not_clear_lone (hg : Clear mask name) (hr : EscReads mask true d) (hm : d.m = [])
    (hn : d.n = []) (hfinds : EscFinds mask name [] true d) (hmore : EscFinds mask name further true d) :
    False := by
  obtain ⟨body, hmask, hbody, htoks⟩ := exists_body (openEnd_at_end hr hm)
  have hno := no_star_behind hm hfinds
  have hdenotes : Denotes (toks false mask) name := by
    have hhere := hfinds.of_here (by dsimp only; rw [hm, hn]; rfl)
    rwa [List.append_nil] at hhere
  rcases hg.lone body hmask hbody ((inEscLang_iff _ _).mpr ⟨hbody, htoks ▸ hdenotes⟩) with hsplit | hlast
  · rw [splitsName_iff hbody, htoks] at hsplit
    unfold EscFinds at hmore
    rw [hm, hn] at hmore
    exact hmore.starved hsplit
  · -- the loop gives up at a star in front of the open backslash
    obtain ⟨before, hbefore⟩ := List.getLast?_eq_some_iff.mp hlast
    obtain ⟨skipped, hmarks, hfirst, hcut⟩ := hr.cut
    have hall : marks false mask = before ++ [(false, star)] ++ [(false, backslash)] := by
      rw [hmask, marks_concat body false hbody, hbefore]
    rw [hall] at hmarks
    have hma : d.ma ≠ [] := by
      intro hnil
      have hopens := hr.opens
      rw [hnil, openEnd_at_end hr hm] at hopens
      cases hopens
    obtain ⟨front, x, hx⟩ := (List.eq_nil_or_concat (marks false d.ma)).resolve_left fun hnil => by
      have hlen := congrArg List.length (map_snd_marks d.ma false)
      rw [hnil] at hlen
      exact hma (List.length_eq_zero_iff.mp hlen.symm)
    rw [List.concat_eq_append] at hx
    rw [hx, ← List.append_assoc] at hmarks
    obtain ⟨hfront, -⟩ := List.append_inj' hmarks rfl
    by_cases hnil : front = []
    · subst hnil
      have hbytes := map_snd_marks d.ma false
      have hlone : d.ma = [backslash] := by
        obtain ⟨-, hxb⟩ := List.append_inj' hmarks rfl
        rw [hx, ← hxb] at hbytes
        exact hbytes.symm
      cases hwild : d.wild with
      | true => exact (hcut hwild).2.2 hlone
      | false =>
        rw [hfirst hwild] at hfront
        exact absurd hfront (by simp)
    · obtain ⟨front', y, rfl⟩ := (List.eq_nil_or_concat front).resolve_left hnil
      rw [List.concat_eq_append] at hx hfront
      rw [← List.append_assoc] at hfront
      obtain ⟨-, hy⟩ := List.append_inj' hfront rfl
      obtain rfl := List.singleton_inj.mp hy
      refine hno ?_
      rw [hx]
      simp

theorem compare_nil (hm : d.m = []) : d.compare mask =
    if d.n = [] then .inl true
    else if d.quote ≠ 0 then .inl false
    else if endsInStar mask then .inl true
    else if !d.wild then .inl false
    else ({ d with m := d.ma, n := d.na.tail, na := d.na.tail } : EscCursor).advance := by
  unfold EscCursor.compare
  rw [if_pos hm]

/-- At the end of the mask with more of the name, a part of the name is matched. -/
theorem EscFinds.part (h : EscFinds mask name further esc d) (hm : d.m = []) (hn : d.n ≠ []) :
    Denotes (toks false mask ++ further) name := by
  refine h.of_here ?_
  dsimp only
  rw [hm]
  obtain ⟨a, v, hav⟩ := List.exists_cons_of_ne_nil hn
  exact ⟨a, v, hav, rfl, [], List.nil_suffix, rfl⟩

/-- Back to the star, at the end of a mask. -/
theorem moves_back (hne : mask ≠ [star]) (hr : EscReads mask false d) (hquote : d.quote = 0)
    (hfinds : EscFinds mask name [] false d) (hm : d.m = []) (hn : d.n ≠ [])
    (hends : endsInStar mask = false) (hesc : ¬ EscapeFirst mask) (hwild : d.wild = true) :
    ∃ e, escRank e ≤ escRank d ∧ EscFinds mask name [] false e ∧
      Moves mask name false e ({ d with m := d.ma, n := d.na.tail, na := d.na.tail } : EscCursor).advance := by
  obtain ⟨hma, hstar, hback⟩ := comeback hne hr hfinds hm hends hesc hwild
  obtain ⟨m, n, ma, na, wild, quote⟩ := d
  dsimp only at hwild hquote hm hn hma hstar hback ⊢
  subst hwild hquote hm
  obtain ⟨tests, x, hpa, hwa, hx⟩ := hfinds.taken
  dsimp only at hpa hwa
  have hlen : 0 < x.length := by
    have htoks := congrArg List.length hpa
    obtain ⟨b, ma, rfl⟩ := List.exists_cons_of_ne_nil hma
    have hb : b ≠ backslash := fun he => hback (congrArg some he)
    rw [toks, atomsOf_plain hb] at htoks
    simp only [List.map_cons, List.length_append, List.length_cons, List.length_map, toks, atomsOf,
      List.map_nil, List.length_nil] at htoks
    rw [← hx.length_eq]
    omega
  obtain ⟨a, x, rfl⟩ := List.exists_cons_of_length_pos hlen
  rw [List.cons_append] at hwa
  subst hwa
  have htail : x ++ n ≠ [] := List.append_ne_nil_of_right_ne_nil _ hn
  have hexact : EscFinds mask name [] false ⟨ma, x ++ n, ma, x ++ n, true, 0⟩ := hfinds.back hn
  refine ⟨⟨ma, x ++ n, ma, x ++ n, true, 0⟩, ?_, hexact, ?_⟩
  · dsimp only [escRank]
    rw [List.length_cons, Nat.succ_mul, List.length_nil]
    omega
  · have hcompare : (⟨ma, x ++ n, ma, x ++ n, true, 0⟩ : EscCursor).compare mask =
        (⟨ma, x ++ n, ma, x ++ n, true, 0⟩ : EscCursor).advance := by
      unfold EscCursor.compare
      rw [if_neg hma, if_neg htail]
    have hreads : EscReads mask false ⟨ma, x ++ n, ma, x ++ n, true, 0⟩ :=
      ⟨⟨[], rfl, rfl⟩, hr.opens, hr.cut⟩
    rw [List.tail_cons, ← hcompare]
    exact moves_compare hreads hexact hma (Or.inl ⟨rfl, rfl, hstar, hback⟩)

/-- What `match_esc` says from a cursor on. -/
def Right (mask name : Bytes) (calls : Nat) (c : EscCursor) : Prop :=
  (matchEscLoop mask calls c = true → InEscLang mask name) ∧
    (InEscLang mask name → escRank c < calls → matchEscLoop mask calls c = true)

/-- Where it is known so far whether a part of the name is matched. -/
def Known (mask name : Bytes) (c : EscCursor) : Prop :=
  openEnd false mask = false ∧ Denotes (toks false mask ++ further) name ∨
    EscFinds mask name further (c.quote == 1) c

/-- `match_esc` is right with so many rounds, from wherever its search is exact. -/
def AllRight (mask name : Bytes) (calls : Nat) : Prop := ∀ c,
  EscReads mask (c.quote == 1) c → c.quote ≤ 2 → EscFinds mask name [] (c.quote == 1) c →
  Known mask name c → Right mask name calls c

section Rightly

variable {calls : Nat}

/-- A verdict of no, where nothing can be found. -/
theorem Right.no (hround : c.round mask = .inl false) (hlang : ¬ InEscLang mask name) :
    Right mask name (calls + 1) c := by
  refine ⟨fun h => ?_, fun h => absurd h hlang⟩
  rw [matchEscLoop, hround] at h
  cases h

theorem Right.yes (hround : c.round mask = .inl true) (hlang : InEscLang mask name) :
    Right mask name (calls + 1) c := by
  refine ⟨fun _ => hlang, fun _ _ => ?_⟩
  rw [matchEscLoop, hround]

/-- A move from the cursor, or from one that is no further. -/
theorem Right.moves (ih : AllRight mask name calls) {e : EscCursor} (hmoves : Moves mask name esc e (c.round mask))
    (hrank : escRank e ≤ escRank c) (hf : EscFinds mask name [] esc e)
    (hk : openEnd false mask = false ∧ Denotes (toks false mask ++ further) name ∨
      EscFinds mask name further esc e) : Right mask name (calls + 1) c := by
  generalize hround : c.round mask = r at hmoves
  cases hmoves with
  | next c' hle hreads hless hstep _ =>
    have hright := ih c' hreads hle (hstep [] hf) (hk.imp_right (hstep further))
    refine ⟨fun h => hright.1 ?_, fun hlang hcalls => ?_⟩
    · rw [matchEscLoop, hround] at h
      exact h
    · rw [matchEscLoop, hround]
      exact hright.2 hlang (by omega)
  | fails hnone =>
    refine .no hround fun hlang => hnone [] hf ?_
    rw [List.append_nil]
    exact ((inEscLang_iff _ _).mp hlang).2

/-- At both ends: with no backslash open the name is matched, and with one the mask is not clear. -/
theorem right_both_ends (hg : Clear mask name) (hround : c.round mask = .inl true) (hm : d.m = []) (hn : d.n = [])
    (hr : EscReads mask esc d) (hf : EscFinds mask name [] esc d)
    (hk : openEnd false mask = false ∧ Denotes (toks false mask ++ further) name ∨
      EscFinds mask name further esc d) : Right mask name (calls + 1) c := by
  have hopen := openEnd_at_end hr hm
  cases esc with
  | false =>
    refine .yes hround ((inEscLang_iff _ _).mpr ⟨hopen, ?_⟩)
    have hhere := hf.of_here (by dsimp only; rw [hm, hn]; rfl)
    rwa [List.append_nil] at hhere
  | true =>
    have hmore := hk.resolve_left fun h => Bool.noConfusion (hopen.symm.trans h.1)
    exact (not_clear_lone hg hr hm hn hf hmore).elim

/-- What the walk back over the end of the mask says there. -/
theorem right_more_name (hne : mask ≠ [star]) (hg : Clear mask name) (ih : AllRight mask name calls)
    (hround : c.round mask = if endsInStar mask then .inl true else if !d.wild then .inl false
      else ({ d with m := d.ma, n := d.na.tail, na := d.na.tail } : EscCursor).advance)
    (hm : d.m = []) (hn : d.n ≠ []) (hquote : d.quote = 0) (hrank : escRank d ≤ escRank c)
    (hr : EscReads mask false d) (hf : EscFinds mask name [] false d)
    (hsplit : Denotes (toks false mask ++ further) name) : Right mask name (calls + 1) c := by
  have hopen := openEnd_at_end hr hm
  have hpart : SplitsName mask name := (splitsName_iff hopen).mpr hsplit
  cases hends : endsInStar mask with
  | true =>
    rw [hends, if_pos rfl] at hround
    refine .yes hround ?_
    by_cases hfake : FakeStar mask
    · exact hg.star hfake hpart
    · exact (inEscLang_iff _ _).mpr ⟨hopen, denotes_of_endsInStar hr hf hm hends hfake⟩
  | false =>
    rw [hends, if_neg Bool.false_ne_true] at hround
    cases hwild : d.wild with
    | false =>
      rw [hwild, Bool.not_false, if_pos rfl] at hround
      refine .no hround fun hlang => ?_
      have hbad : ¬ Denotes (toks false d.m ++ []) d.n := by
        rw [hm]
        exact hn
      unfold EscFinds at hf
      rw [hwild] at hf
      refine hbad (hf.only.mp ?_)
      rw [List.append_nil]
      exact ((inEscLang_iff _ _).mp hlang).2
    | true =>
      have hfake : ¬ FakeStar mask := fun h => Bool.noConfusion (hends.symm.trans (endsInStar_of_fakeStar h))
      have hesc : ¬ EscapeFirst mask := fun h => hg.escape h hfake hpart
      obtain ⟨e, herank, hef, hmoves⟩ := moves_back hne hr hquote hf hm hn hends hesc hwild
      have hback : c.round mask = ({ d with m := d.ma, n := d.na.tail, na := d.na.tail } : EscCursor).advance := by
        rw [hround, hwild, Bool.not_true, if_neg Bool.false_ne_true]
      rw [← hback] at hmoves
      exact .moves ih hmoves (Nat.le_trans herank hrank) hef (Or.inl ⟨hopen, hsplit⟩)

end Rightly

theorem matchEscLoop_right (hne : mask ≠ [star]) (hg : Clear mask name) (calls : Nat) : ∀ c,
    EscReads mask (c.quote == 1) c → c.quote ≤ 2 → EscFinds mask name [] (c.quote == 1) c →
    Known mask name c → Right mask name calls c := by
  induction calls with
  | zero => exact fun c _ _ _ _ => ⟨fun h => Bool.noConfusion h, fun _ h => absurd h (Nat.not_lt_zero _)⟩
  | succ calls ih =>
    intro c hr hq hfinds hknown
    rcases round_cases hr hq hfinds with hmoves | ⟨hround, before, hmarks⟩ |
      ⟨d, hround, hm, hdq, hdr, hrank, hstep⟩
    · exact .moves ih hmoves (Nat.le_refl _) hfinds hknown
    · refine .no hround fun hlang => ?_
      rw [inEscLang_iff, openEnd_of_marks hmarks] at hlang
      cases hlang.1
    have hopen := openEnd_at_end hdr hm
    have hdf := (hstep [] hfinds).1
    have hdk := Or.imp_right (fun h => (hstep further h).1) hknown
    rw [compare_nil hm] at hround
    by_cases hn : d.n = []
    · rw [if_pos hn] at hround
      exact right_both_ends hg hround hm hn hdr hdf hdk
    rw [if_neg hn] at hround
    rcases hdq with hdq | hdq
    · have hquote : (d.quote != 0) = false := by rw [hdq]; rfl
      rw [hquote] at hdf hdr hdk
      rw [if_neg (not_not_intro hdq)] at hround
      exact right_more_name hne hg ih hround hm hn hdq hrank hdr hdf (hdk.elim And.right fun h => h.part hm hn)
    · have hquote : (d.quote != 0) = true := by rw [hdq]; rfl
      have hnz : d.quote ≠ 0 := by omega
      rw [if_pos hnz] at hround
      refine .no hround fun hlang => ?_
      rw [inEscLang_iff, hopen, hquote] at hlang
      cases hlang.1

theorem reads_start (mask name : Bytes) : EscReads mask false ⟨mask, name, mask, name, false, 0⟩ :=
  ⟨⟨[], rfl, rfl⟩, rfl, [], rfl, fun _ => rfl, fun h => Bool.noConfusion h⟩

/-- The rounds that the lengths allow for. -/
theorem rank_start (h : (mask.length + 1) * (name.length + 1) ≤ matchMaxCalls) (quote : Nat) :
    escRank ⟨mask, name, mask, name, false, quote⟩ < matchMaxCalls := by
  have hexpand : (mask.length + 1) * (name.length + 1) =
      name.length * (mask.length + 1) + mask.length + 1 := by
    rw [Nat.mul_comm, Nat.succ_mul]
    rfl
  dsimp only [escRank]
  omega

/-- The rounds that the lengths allow for are enough. -/
theorem toGo_le_rank {more : List (Token UInt8)} (hd : Denotes (toks false mask ++ more) name)
    (hstar : ∀ before, marks false mask ≠ before ++ [(false, star)] ++ [(false, backslash)]) (rank : Nat) : ∀ c,
    EscReads mask (c.quote == 1) c → c.quote ≤ 2 → EscFinds mask name [] (c.quote == 1) c →
    EscFinds mask name more (c.quote == 1) c → escRank c ≤ rank → toGo (c.quote == 1) c ≤ rank + 1 := by
  induction rank using Nat.strongRecOn with
  | ind rank ih =>
    intro c hr hq hfinds hmore hrank
    rcases round_cases hr hq hfinds with hmoves | ⟨-, before, hmarks⟩ | ⟨d, -, -, -, -, -, hstep⟩
    · generalize c.round mask = r at hmoves
      cases hmoves with
      | fails hnone => exact absurd hd (hnone more hmore)
      | next c' hle hreads hless hstep hcount =>
        have hc := ih (escRank c') (by omega) c' hreads hle (hstep [] hfinds) (hstep more hmore) (Nat.le_refl _)
        rw [hcount more hmore hd]
        omega
    · exact absurd hmarks (hstar before)
    · rw [(hstep more hmore).2 hd]
      omega

/-- Where something can be found, the rounds that are needed are not spared: with fewer the loop says no. -/
theorem matchEscLoop_late {more : List (Token UInt8)} (hd : Denotes (toks false mask ++ more) name)
    (calls : Nat) : ∀ c,
    EscReads mask (c.quote == 1) c → c.quote ≤ 2 → EscFinds mask name [] (c.quote == 1) c →
    EscFinds mask name more (c.quote == 1) c → calls < toGo (c.quote == 1) c → matchEscLoop mask calls c = false := by
  induction calls with
  | zero => exact fun _ _ _ _ _ _ => rfl
  | succ calls ih =>
    intro c hr hq hfinds hmore hlt
    rw [matchEscLoop]
    rcases round_cases hr hq hfinds with hmoves | ⟨hround, -⟩ | ⟨d, -, -, -, -, -, hstep⟩
    · generalize c.round mask = r at hmoves
      cases hmoves with
      | fails hnone => exact absurd hd (hnone more hmore)
      | next c' hle hreads hless hstep hcount =>
        have hc := hcount more hmore hd
        exact ih c' hreads hle (hstep [] hfinds) (hstep more hmore) (by omega)
    · rw [hround]
    · have hone := (hstep more hmore).2 hd
      omega

/-- With enough of them it comes to the end of the mask, and if that means yes, it says yes. -/
theorem matchEscLoop_yes {more : List (Token UInt8)} (hd : Denotes (toks false mask ++ more) name)
    (hstar : ∀ before, marks false mask ≠ before ++ [(false, star)] ++ [(false, backslash)])
    (hend : ∀ d, d.m = [] → EscReads mask (d.quote != 0) d → EscFinds mask name more (d.quote != 0) d →
      EscFinds mask name further (d.quote != 0) d → d.compare mask = .inl true) (calls : Nat) : ∀ c,
    EscReads mask (c.quote == 1) c → c.quote ≤ 2 → EscFinds mask name [] (c.quote == 1) c →
    EscFinds mask name more (c.quote == 1) c → EscFinds mask name further (c.quote == 1) c →
    toGo (c.quote == 1) c ≤ calls → matchEscLoop mask calls c = true := by
  induction calls with
  | zero => exact fun c _ _ _ _ _ h => absurd (toGo_pos _ c) (Nat.not_lt.mpr h)
  | succ calls ih =>
    intro c hr hq hfinds hmore hfurther hle
    rw [matchEscLoop]
    rcases round_cases hr hq hfinds with hmoves | ⟨-, before, hmarks⟩ | ⟨d, hround, hm, -, hdr, -, hstep⟩
    · generalize c.round mask = r at hmoves
      cases hmoves with
      | fails hnone => exact absurd hd (hnone more hmore)
      | next c' hquote hreads hless hstep hcount =>
        have hc := hcount more hmore hd
        exact ih c' hreads hquote (hstep [] hfinds) (hstep more hmore) (hstep further hfurther) (by omega)
    · exact absurd hmarks (hstar before)
    · rw [hround, hend d hm hdr (hstep more hmore).1 (hstep further hfurther).1]

/-- An escaped star at the end makes `match_esc` accept every name of which a part is matched. -/
theorem matchEsc_of_fakeStar (hfake : FakeStar mask) (hsplit : SplitsName mask name)
    (hcalls : escEffort mask name ≤ matchMaxCalls) : matchEsc mask name = true := by
  obtain ⟨w, u, hname, hu, hw⟩ := hsplit
  have hopen := ((inEscLang_iff _ _).mp hw).1
  have hd : Denotes (toks false mask ++ further) name :=
    (splitsName_iff hopen).mp ⟨w, u, hname, hu, hw⟩
  unfold matchEsc
  by_cases hstar : mask = [star]
  · rw [if_pos hstar]
  rw [if_neg hstar]
  refine matchEscLoop_yes hd (fun before hmarks => ?_) (fun d hm hdr _ _ => ?_) matchMaxCalls _
    (reads_start mask name) (Nat.zero_le _) (Exact.start _ _) (Exact.start _ _) (Exact.start _ _) hcalls
  · rw [openEnd_of_marks hmarks] at hopen
    cases hopen
  · have hquote : d.quote = 0 := by
      have hesc := (openEnd_at_end hdr hm).symm.trans hopen
      simpa using hesc
    rw [compare_nil hm, if_neg (not_not_intro hquote), endsInStar_of_fakeStar hfake, if_pos rfl]
    split <;> rfl

/-- A name that the mask without its open backslash matches, and no part of it, is accepted. -/
theorem matchEsc_of_lone {body : Bytes} (hmask : mask = body ++ [backslash])
    (hbody : openEnd false body = false) (hlang : InEscLang body name) (hsplit : ¬ SplitsName body name)
    (hlast : (marks false body).getLast? ≠ some (false, star))
    (hcalls : escEffort mask name ≤ matchMaxCalls) : matchEsc mask name = true := by
  have hopen : openEnd false mask = true := by
    rw [hmask, openEnd_append, hbody]
    rfl
  have htoks : toks false body = toks false mask := by
    obtain ⟨body', hmask', -, htoks⟩ := exists_body hopen
    obtain ⟨rfl, -⟩ := List.append_inj' (hmask.symm.trans hmask') rfl
    exact htoks
  have hd : Denotes (toks false mask ++ []) name := by
    rw [List.append_nil, ← htoks]
    exact ((inEscLang_iff _ _).mp hlang).2
  have hfurther : ¬ Denotes (toks false mask ++ further) name := by
    rw [← htoks]
    exact fun h => hsplit ((splitsName_iff hbody).mpr h)
  unfold matchEsc
  by_cases hstar : mask = [star]
  · rw [if_pos hstar]
  rw [if_neg hstar]
  refine matchEscLoop_yes hd (fun before hmarks => ?_) (fun d hm hdr _ hdf => ?_) matchMaxCalls _
    (reads_start mask name) (Nat.zero_le _) (Exact.start _ _) (Exact.start _ _) (Exact.start _ _) hcalls
  · rw [hmask, marks_concat body false hbody] at hmarks
    obtain ⟨hmarks, -⟩ := List.append_inj' hmarks rfl
    rw [hmarks] at hlast
    exact hlast List.getLast?_concat
  · rw [compare_nil hm]
    by_cases hn : d.n = []
    · rw [if_pos hn]
    · exact absurd (hdf.part hm hn) hfurther

/-- What `match_esc` is to do for a mask and a name. -/
def EscExact (mask name : Bytes) : Prop :=
  (matchEsc mask name = true → InEscLang mask name) ∧
    (InEscLang mask name → (mask.length + 1) * (name.length + 1) ≤ matchMaxCalls →
      openEnd false mask = false → matchEsc mask name = true)

/-- Without the rounds to come to the end of the mask `match_esc` says no. -/
theorem matchEsc_late {more : List (Token UInt8)} (hstar : mask ≠ [star])
    (hd : Denotes (toks false mask ++ more) name)
    (hlate : matchMaxCalls < escEffort mask name) : matchEsc mask name = false := by
  rw [matchEsc, if_neg hstar]
  exact matchEscLoop_late hd matchMaxCalls ⟨mask, name, mask, name, false, 0⟩ (reads_start mask name) (Nat.zero_le _)
    (Exact.start _ _) (Exact.start _ _) hlate

/-- The lengths that the claim of completeness is about allow for all rounds that are needed. -/
theorem escEffort_le {more : List (Token UInt8)} (hopen : openEnd false mask = false)
    (hd : Denotes (toks false mask ++ more) name) (hcalls : (mask.length + 1) * (name.length + 1) ≤ matchMaxCalls) :
    escEffort mask name ≤ matchMaxCalls := by
  have hrank := rank_start hcalls 0
  have hle : escEffort mask name ≤ escRank ⟨mask, name, mask, name, false, 0⟩ + 1 :=
    toGo_le_rank hd (fun before hmarks => by rw [openEnd_of_marks hmarks] at hopen; cases hopen) _
      ⟨mask, name, mask, name, false, 0⟩ (reads_start mask name) (Nat.zero_le _) (Exact.start _ _) (Exact.start _ _)
      (Nat.le_refl _)
  omega

theorem escExact_of_clear (hg : Clear mask name) : EscExact mask name := by
  unfold EscExact matchEsc
  by_cases hstar : mask = [star]
  · rw [if_pos hstar]
    refine ⟨fun _ => ?_, fun _ _ _ => rfl⟩
    rw [hstar]
    exact ⟨[.any], rfl, [], List.nil_suffix, rfl⟩
  · rw [if_neg hstar]
    have hright := matchEscLoop_right hstar hg matchMaxCalls ⟨mask, name, mask, name, false, 0⟩
      (reads_start mask name) (Nat.zero_le _) (Exact.start _ _) (Or.inr (Exact.start _ _))
    exact ⟨hright.1, fun hlang hcalls _ => hright.2 hlang (rank_start hcalls 0)⟩

theorem escExact_of_legible (hg : Legible mask name) : EscExact mask name := by
  by_cases hstar : mask = [star]
  · refine ⟨fun _ => ?_, fun _ _ _ => by rw [matchEsc, if_pos hstar]⟩
    rw [hstar]
    exact ⟨[.any], rfl, [], List.nil_suffix, rfl⟩
  by_cases hlate : matchMaxCalls < escEffort mask name
  swap
  · exact escExact_of_clear (hg.clear (fun _ => Nat.not_lt.mp hlate) fun _ _ _ _ => Nat.not_lt.mp hlate)
  -- the loop is cut short where it would come to the end of the mask
  by_cases hsplit : SplitsName mask name
  · have hopen : openEnd false mask = false := by
      obtain ⟨w, -, -, -, hw⟩ := hsplit
      exact ((inEscLang_iff _ _).mp hw).1
    have hd := (splitsName_iff hopen).mp hsplit
    rw [EscExact, matchEsc_late hstar hd hlate]
    exact ⟨fun h => Bool.noConfusion h, fun _ hcalls _ =>
      absurd (escEffort_le hopen hd hcalls) (Nat.not_le.mpr hlate)⟩
  cases hopen : openEnd false mask with
  | false =>
    refine escExact_of_clear (hg.clear (fun h => absurd h hsplit) fun body hmask hbody _ => ?_)
    rw [hmask, openEnd_append, hbody] at hopen
    cases hopen
  | true =>
    obtain ⟨body, hmask, hbody, htoks⟩ := exists_body hopen
    by_cases hlang : InEscLang body name
    · have hd : Denotes (toks false mask ++ []) name := by
        rw [List.append_nil, ← htoks]
        exact ((inEscLang_iff _ _).mp hlang).2
      rw [EscExact, matchEsc_late hstar hd hlate, hopen]
      exact ⟨fun h => Bool.noConfusion h, fun _ _ h => Bool.noConfusion h⟩
    · refine escExact_of_clear (hg.clear (fun h => absurd h hsplit) fun body' hmask' _ hlang' => ?_)
      obtain ⟨rfl, -⟩ := List.append_inj' (hmask.symm.trans hmask') rfl
      exact absurd hlang' hlang

theorem legible_of_escExact
    (hesc : EscapeFirst mask → ¬ FakeStar mask → SplitsName mask name → matchMaxCalls < escEffort mask name)
    (h : EscExact mask name) : Legible mask name where
  star := fun hfake hsplit hcalls => h.1 (matchEsc_of_fakeStar hfake hsplit hcalls)
  escape := hesc
  lone := by
    intro body hmask hbody hlang hcalls
    by_contra hneither
    rw [not_or] at hneither
    have hmatch := matchEsc_of_lone hmask hbody hlang hneither.1 hneither.2 hcalls
    have hopen := ((inEscLang_iff _ _).mp (h.1 hmatch)).1
    rw [hmask, openEnd_append, hbody] at hopen
    cases hopen

/-- `match_esc` accepts the language of its mask and, as far as its rounds last, all of it,
    where the end of the mask is read as it is meant.  It does so only there, unless it came back
    to a backslash behind a star. -/
theorem escExact_where_legible (mask name : Bytes) :
    (Legible mask name → EscExact mask name) ∧
    ((EscapeFirst mask → ¬ FakeStar mask → SplitsName mask name → matchMaxCalls < escEffort mask name) →
      EscExact mask name → Legible mask name) :=
  ⟨escExact_of_legible, legible_of_escExact⟩

/-- An escaped star at the end is taken for a star: the mask `a\*` accepts `a*b`.  Behind a
    star an escaped byte is compared with its backslash: the mask `*\x` does not accept `xx`. -/
theorem not_matchEsc_exact :
    (¬ ∀ mask name : Bytes, matchEsc mask name = true → InEscLang mask name) ∧
    ¬ ∀ mask name : Bytes, InEscLang mask name →
      (mask.length + 1) * (name.length + 1) ≤ matchMaxCalls → openEnd false mask = false →
      matchEsc mask name = true := by
  constructor
  · intro h
    obtain ⟨atoms, hatoms, hdenotes⟩ := h [97, 92, 42] [97, 42, 98] (by decide)
    obtain rfl := Option.some.inj hatoms
    obtain ⟨a, u, hw, -, b, v, rfl, -, hv⟩ := hdenotes
    cases hw
    cases hv
  · intro h
    have hmatch := h [42, 92, 120] [120, 120]
      ⟨_, rfl, [120], ⟨[120], rfl⟩, 120, [], rfl, rfl, rfl⟩ (by decide) rfl
    revert hmatch
    decide

end Runs

end Bluebox.Glob
