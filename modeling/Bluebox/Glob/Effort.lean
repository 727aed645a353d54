/-
  Bluebox.Glob.Effort

  How many rounds `match` needs, and the bans for which it has enough of them.

  The stars cut a mask into pieces.  The first piece is compared at the start of the
  name, each next one at every place behind the one before until it fits, and the last
  one until it fits at the end.  A place where a piece does not fit costs the bytes that
  agree and one more; `effort` is the sum.
-/
import Bluebox.Glob.Match
import Bluebox.Channel.Bans

namespace Bluebox.Glob

open Bluebox.Lib Bluebox.Lib.Glob

-- ============================================================================
-- Pieces and places
-- ============================================================================

/-- A byte of a mask takes a byte of a name. -/
def takes (b a : UInt8) : Bool := b == quest || toLower b == toLower a

/-- How many bytes of a piece take bytes of a text, in a row. -/
def agree : Bytes → Bytes → Nat
  | b :: piece, a :: w => if takes b a then agree piece w + 1 else 0
  | _, _ => 0

/-- The comparisons until a piece fits, place after place. -/
def seek (piece : Bytes) : Bytes → Nat
  | [] => 0
  | a :: w =>
    if agree piece (a :: w) = piece.length then piece.length
    else agree piece (a :: w) + 1 + seek piece w

/-- What is behind the first place where a piece fits. -/
def behind (piece : Bytes) : Bytes → Bytes
  | [] => []
  | a :: w =>
    if agree piece (a :: w) = piece.length then (a :: w).drop piece.length else behind piece w

/-- The comparisons until a piece fits at the end, and the round that finds it there.
    Where the piece fits earlier, the next place begins in the round that finds out. -/
def seekEnd (piece : Bytes) : Bytes → Nat
  | [] => piece.length + 1
  | a :: w =>
    if (a :: w).length ≤ piece.length then piece.length + 1
    else agree piece (a :: w) + (if agree piece (a :: w) = piece.length then 0 else 1) + seekEnd piece w

/-- The comparisons for the pieces behind the first star.  Question marks behind the last
    star need no end. -/
def spread (mask : Bytes) : List Bytes → Bytes → Nat
  | [], _ => 0
  | [piece], w => if endsInStar mask then piece.length + 1 else seekEnd piece w
  | piece :: next :: rest, w => seek piece w + spread mask (next :: rest) (behind piece w)

/-- The comparisons to find a name in the language of a mask. -/
def effort (mask name : Bytes) : Nat :=
  match mask.splitOn star with
  | [] => 0
  | [piece] => piece.length + 1
  | piece :: next :: rest => piece.length + spread mask (next :: rest) (name.drop piece.length)

section Agree

variable {piece w m : Bytes}

theorem agree_le (piece : Bytes) : ∀ w, agree piece w ≤ piece.length ∧ agree piece w ≤ w.length := by
  induction piece with
  | nil => exact fun w => ⟨Nat.zero_le _, Nat.zero_le _⟩
  | cons b piece ih =>
    intro w
    cases w with
    | nil => exact ⟨Nat.zero_le _, Nat.zero_le _⟩
    | cons a w =>
      rw [agree]
      have hih := ih w
      split
      · simp only [List.length_cons]
        omega
      · exact ⟨Nat.zero_le _, Nat.zero_le _⟩

/-- A piece without stars is a list of tests. -/
theorem map_token_piece (hno : star ∉ piece) : piece.map token = (piece.map takes).map .one := by
  rw [List.map_map]
  refine List.map_congr_left fun b hb => ?_
  exact token_of_ne fun h => hno (h ▸ hb)

theorem fits_of_agree (h : agree piece w = piece.length) :
    Fits (piece.map takes) (w.take piece.length) := by
  induction piece generalizing w with
  | nil => exact .nil
  | cons b piece ih =>
    cases w with
    | nil => cases h
    | cons a w =>
      rw [agree] at h
      by_cases hb : takes b a = true
      · rw [if_pos hb] at h
        exact .cons hb (ih (Nat.succ.inj h))
      · rw [if_neg hb] at h
        cases h

theorem agree_of_fits {x u : Bytes} (h : Fits (piece.map takes) x) :
    agree piece (x ++ u) = piece.length := by
  induction piece generalizing x with
  | nil => rfl
  | cons b piece ih =>
    cases h with
    | cons hb hx =>
      rw [List.cons_append, agree, if_pos hb, ih hx]
      rfl

/-- A piece and more behind it. -/
theorem denotes_piece_iff {p : List (Token UInt8)} (hno : star ∉ piece) :
    Denotes (piece.map token ++ p) w ↔
      agree piece w = piece.length ∧ Denotes p (w.drop piece.length) := by
  rw [map_token_piece hno]
  constructor
  · intro h
    obtain ⟨x, u, rfl, hx, hp⟩ := denotes_tests_append.mp h
    have hlen : piece.length = x.length := by
      rw [← List.length_map (f := takes)]
      exact hx.length_eq
    rw [hlen, List.drop_left]
    exact ⟨(agree_of_fits hx).trans hlen, hp⟩
  · rintro ⟨hagree, hp⟩
    exact denotes_tests_append.mpr ⟨_, _, (List.take_append_drop _ _).symm, fits_of_agree hagree, hp⟩

end Agree

-- ============================================================================
-- Rounds
-- ============================================================================

section Rounds

variable {mask : Bytes} {c c' : Cursor} {piece m n w : Bytes} {ma na : Bytes} {wild : Bool} {e k : Nat}

/-- From a cursor `match` finds the name if it has so many rounds. -/
def Costs (mask : Bytes) (c : Cursor) (e : Nat) : Prop :=
  ∀ calls, matchLoop mask calls c = true ↔ e ≤ calls

theorem matchLoop_mono (calls : Nat) : ∀ {c : Cursor}, matchLoop mask calls c = true →
    ∀ more, matchLoop mask (calls + more) c = true := by
  induction calls with
  | zero => exact fun h => Bool.noConfusion h
  | succ calls ih =>
    intro c h more
    rw [Nat.succ_add, matchLoop]
    rw [matchLoop] at h
    cases hr : c.round mask with
    | inl verdict =>
      rw [hr] at h
      exact h
    | inr c' =>
      rw [hr] at h
      exact ih h more

/-- Rounds that lead to another cursor are added. -/
theorem Costs.after (hstep : ∀ calls, matchLoop mask (k + calls) c = matchLoop mask calls c')
    (h : Costs mask c' e) : Costs mask c (k + e) := by
  intro calls
  by_cases hk : k ≤ calls
  · obtain ⟨more, rfl⟩ := Nat.exists_eq_add_of_le hk
    rw [hstep, h more]
    omega
  · refine iff_of_false (fun htrue => ?_) (by omega)
    obtain ⟨more, hmore⟩ := Nat.exists_eq_add_of_le (Nat.le_of_not_le hk)
    have hend := matchLoop_mono calls htrue more
    rw [← hmore, ← Nat.add_zero k, hstep] at hend
    cases hend

theorem costs_of_round_eq (hround : c.round mask = c'.round mask) (h : Costs mask c' e) :
    Costs mask c e := by
  intro calls
  rw [← h calls]
  cases calls with
  | zero => rfl
  | succ calls => rw [matchLoop, matchLoop, hround]

theorem costs_one (hround : c.round mask = .inl true) : Costs mask c 1 := by
  intro calls
  cases calls with
  | zero => exact iff_of_false Bool.false_ne_true (by omega)
  | succ calls =>
    rw [matchLoop, hround]
    exact iff_of_true rfl (by omega)

/-- Where the stars end decides. -/
theorem round_congr (h : c.skipStars = c'.skipStars) : c.round mask = c'.round mask := by
  unfold Cursor.round
  rw [h]

theorem skipStars_of_head (h : c.m.head? ≠ some star) : c.skipStars = c := by
  unfold Cursor.skipStars
  rw [if_neg h]

theorem skipStars_star (m n : Bytes) : (⟨star :: m, n, ma, na, wild⟩ : Cursor).skipStars =
    ⟨m.dropWhile (· == star), n, m.dropWhile (· == star), n, true⟩ := by
  unfold Cursor.skipStars
  exact if_pos rfl

theorem dropStars_of_head (h : m.head? ≠ some star) : m.dropWhile (· == star) = m := by
  cases m with
  | nil => rfl
  | cons b m =>
    have hb : b ≠ star := fun he => h (congrArg some he)
    exact List.dropWhile_cons_of_neg (by simpa using hb)

theorem round_of_ne {a b : UInt8} (ha : a ≠ star) :
    (⟨a :: m, b :: n, ma, na, wild⟩ : Cursor).round mask =
      if takes a b then .inr ⟨m, n, ma, na, wild⟩
      else if wild then .inr ⟨ma, na.tail, ma, na.tail, true⟩ else .inl false := by
  have hskip : (⟨a :: m, b :: n, ma, na, wild⟩ : Cursor).skipStars = ⟨a :: m, b :: n, ma, na, wild⟩ :=
    skipStars_of_head fun h => ha (Option.some.inj h)
  unfold Cursor.round
  rw [hskip]
  dsimp only
  rw [if_neg (List.cons_ne_nil _ _), if_neg (List.cons_ne_nil _ _)]
  unfold Cursor.advance
  dsimp only [List.headD_cons, List.tail_cons]
  by_cases htake : takes a b = true
  · have hsame : ¬ (toLower a ≠ toLower b ∧ a ≠ quest) := by
      unfold takes at htake
      rw [Bool.or_eq_true, beq_iff_eq, beq_iff_eq] at htake
      tauto
    rw [if_pos htake, if_neg hsame]
  · have hdiff : toLower a ≠ toLower b ∧ a ≠ quest := by
      unfold takes at htake
      rw [Bool.or_eq_true, beq_iff_eq, beq_iff_eq] at htake
      tauto
    rw [if_neg htake, if_pos hdiff]
    cases wild <;> rfl

/-- A piece is walked as far as it agrees. -/
theorem matchLoop_walk (hno : star ∉ piece) (k : Nat) (hk : k ≤ agree piece w) (calls : Nat) :
    matchLoop mask (k + calls) ⟨piece ++ m, w, ma, na, wild⟩ =
      matchLoop mask calls ⟨piece.drop k ++ m, w.drop k, ma, na, wild⟩ := by
  induction k generalizing piece w with
  | zero => rw [Nat.zero_add, List.drop_zero, List.drop_zero]
  | succ k ih =>
    cases piece with
    | nil => cases hk
    | cons b piece =>
      cases w with
      | nil => cases hk
      | cons a w =>
        rw [agree] at hk
        by_cases htake : takes b a = true
        · rw [if_pos htake] at hk
          have hb : b ≠ star := fun h => hno (h ▸ List.mem_cons_self)
          rw [Nat.succ_add, matchLoop, List.cons_append, round_of_ne hb, if_pos htake]
          exact ih (fun h => hno (List.mem_cons_of_mem _ h)) (Nat.le_of_succ_le_succ hk)
        · rw [if_neg htake] at hk
          cases hk

theorem matchLoop_through (hno : star ∉ piece) (hfit : agree piece w = piece.length) (calls : Nat) :
    matchLoop mask (piece.length + calls) ⟨piece ++ m, w, ma, na, wild⟩ =
      matchLoop mask calls ⟨m, w.drop piece.length, ma, na, wild⟩ := by
  rw [matchLoop_walk hno piece.length (Nat.le_of_eq hfit.symm), List.drop_length, List.nil_append]

/-- Where a piece does not fit, the next place is tried. -/
theorem matchLoop_miss (hno : star ∉ piece) (hlt : agree piece w < piece.length)
    (hmore : agree piece w < w.length) (calls : Nat) :
    matchLoop mask (agree piece w + 1 + calls) ⟨piece ++ m, w, ma, na, true⟩ =
      matchLoop mask calls ⟨ma, na.tail, ma, na.tail, true⟩ := by
  induction piece generalizing w with
  | nil => cases hlt
  | cons b piece ih =>
    have hb : b ≠ star := fun h => hno (h ▸ List.mem_cons_self)
    cases w with
    | nil => cases hmore
    | cons a w =>
      rw [agree] at hlt hmore ⊢
      by_cases htake : takes b a = true
      · rw [if_pos htake] at hlt hmore ⊢
        have hcount : agree piece w + 1 + 1 + calls = (agree piece w + 1 + calls) + 1 := by omega
        rw [hcount, matchLoop, List.cons_append, round_of_ne hb, if_pos htake]
        exact ih (fun h => hno (List.mem_cons_of_mem _ h)) (Nat.lt_of_succ_lt_succ hlt)
          (Nat.lt_of_succ_lt_succ hmore)
      · rw [if_neg htake, Nat.zero_add, Nat.add_comm, matchLoop, List.cons_append, round_of_ne hb,
          if_neg htake, if_pos rfl]

theorem round_done (h : n = [] ∨ endsInStar mask = true) :
    (⟨[], n, ma, na, wild⟩ : Cursor).round mask = .inl true := by
  have hskip : (⟨[], n, ma, na, wild⟩ : Cursor).skipStars = ⟨[], n, ma, na, wild⟩ :=
    skipStars_of_head fun h => by cases h
  unfold Cursor.round
  rw [hskip]
  dsimp only
  rw [if_pos rfl]
  by_cases hn : n = []
  · rw [if_pos hn]
  · rw [if_neg hn, if_pos (h.resolve_left hn)]

/-- At the end of the mask with more of the name, the next place begins in the same round. -/
theorem round_end (hends : endsInStar mask = false) (hn : n ≠ []) (hma : ma ≠ [])
    (hhead : ma.head? ≠ some star) (htail : na.tail ≠ []) :
    (⟨[], n, ma, na, true⟩ : Cursor).round mask =
      (⟨ma, na.tail, ma, na.tail, true⟩ : Cursor).round mask := by
  have hskip : (⟨[], n, ma, na, true⟩ : Cursor).skipStars = ⟨[], n, ma, na, true⟩ :=
    skipStars_of_head fun h => by cases h
  have hskip' : (⟨ma, na.tail, ma, na.tail, true⟩ : Cursor).skipStars =
      ⟨ma, na.tail, ma, na.tail, true⟩ := skipStars_of_head hhead
  unfold Cursor.round
  rw [hskip, hskip']
  dsimp only
  rw [if_pos rfl, if_neg hn, hends, if_neg Bool.false_ne_true, Bool.not_true,
    if_neg Bool.false_ne_true, if_neg hma, if_neg htail]

/-- A text that is too short for a piece. -/
theorem not_denotes_of_short {p : List (Token UInt8)} (hno : star ∉ piece)
    (hshort : w.length < piece.length) : ¬ Denotes (.any :: (piece.map token ++ p)) w := by
  rintro ⟨u, hu, hp⟩
  have hagree := ((denotes_piece_iff hno).mp hp).1
  have hle := (agree_le piece u).2
  have hlen := hu.length_le
  omega

/-- A text of the language that does not fit at its start. -/
theorem denotes_of_miss {p : List (Token UInt8)} {a : UInt8} (hno : star ∉ piece)
    (hmiss : ¬ agree piece (a :: w) = piece.length)
    (h : Denotes (.any :: (piece.map token ++ p)) (a :: w)) :
    Denotes (.any :: (piece.map token ++ p)) w ∧ agree piece (a :: w) < piece.length ∧
      agree piece (a :: w) < (a :: w).length := by
  have hle := agree_le piece (a :: w)
  have hlong : ¬ (a :: w).length < piece.length := fun hshort => not_denotes_of_short hno hshort h
  refine ⟨(denotes_any_cons.mp h).resolve_left ?_, by omega, by omega⟩
  exact fun hp => hmiss ((denotes_piece_iff hno).mp hp).1

/-- A piece with a star behind it. -/
theorem costs_piece (hno : star ∉ piece) (hne : piece ≠ [])
    (hrest : ∀ n ma na, Denotes (.any :: m.map token) n →
      Costs mask ⟨star :: m, n, ma, na, true⟩ (spread mask (m.splitOn star) n)) :
    ∀ w, Denotes (.any :: (piece.map token ++ .any :: m.map token)) w →
      Costs mask ⟨piece ++ star :: m, w, piece ++ star :: m, w, true⟩
        (seek piece w + spread mask (m.splitOn star) (behind piece w)) := by
  intro w
  induction w with
  | nil =>
    intro h
    exact absurd h (not_denotes_of_short hno (List.length_pos_iff.mpr hne))
  | cons a w ih =>
    intro h
    rw [seek, behind]
    by_cases hfit : agree piece (a :: w) = piece.length
    · rw [if_pos hfit, if_pos hfit]
      have hdrop : Denotes (.any :: m.map token) ((a :: w).drop piece.length) := by
        rw [← List.take_append_drop piece.length (a :: w), map_token_piece hno] at h
        exact denotes_rest_of_fits (fits_of_agree hfit) h
      exact Costs.after (matchLoop_through hno hfit) (hrest _ _ _ hdrop)
    · rw [if_neg hfit, if_neg hfit, Nat.add_assoc]
      obtain ⟨hw, hlt, hmore⟩ := denotes_of_miss hno hfit h
      exact Costs.after (matchLoop_miss hno hlt hmore) (ih hw)

theorem agree_quests (hquest : ∀ b ∈ piece, b = quest) (hlen : piece.length ≤ w.length) :
    agree piece w = piece.length := by
  induction piece generalizing w with
  | nil => rfl
  | cons b piece ih =>
    cases w with
    | nil => cases hlen
    | cons a w =>
      obtain rfl := hquest b List.mem_cons_self
      have htake : takes quest a = true := rfl
      rw [agree, if_pos htake, ih (fun b hb => hquest b (List.mem_cons_of_mem _ hb))
        (Nat.le_of_succ_le_succ hlen)]
      rfl

/-- The last piece, where it has to fit at the end. -/
theorem costs_seekEnd (hno : star ∉ piece) (hne : piece ≠ []) (hends : endsInStar mask = false) :
    ∀ w, Denotes (.any :: (piece.map token ++ [])) w →
      Costs mask ⟨piece ++ [], w, piece ++ [], w, true⟩ (seekEnd piece w) := by
  intro w
  induction w with
  | nil =>
    intro h
    exact absurd h (not_denotes_of_short hno (List.length_pos_iff.mpr hne))
  | cons a w ih =>
    intro h
    rw [seekEnd]
    by_cases hle : (a :: w).length ≤ piece.length
    · rw [if_pos hle]
      have hfit : agree piece (a :: w) = piece.length := by
        by_contra hmiss
        have hshort : w.length < piece.length := Nat.lt_of_succ_le hle
        exact not_denotes_of_short hno hshort (denotes_of_miss hno hmiss h).1
      exact Costs.after (matchLoop_through hno hfit)
        (costs_one (round_done (Or.inl (List.drop_eq_nil_of_le hle))))
    rw [if_neg hle]
    by_cases hfit : agree piece (a :: w) = piece.length
    · rw [if_pos hfit, hfit, Nat.add_zero]
      have hdrop : (a :: w).drop piece.length ≠ [] := fun hnil => hle (List.drop_eq_nil_iff.mp hnil)
      have hw : Denotes (.any :: (piece.map token ++ [])) w := by
        refine (denotes_any_cons.mp h).resolve_left fun hp => ?_
        exact hdrop ((denotes_piece_iff hno).mp hp).2
      have hwne : w ≠ [] := by
        rintro rfl
        exact hle (List.length_pos_iff.mpr hne)
      have hhead : (piece ++ []).head? ≠ some star := by
        rw [List.append_nil]
        exact fun hhead => hno (List.mem_of_head? hhead)
      refine Costs.after (matchLoop_through hno hfit) (costs_of_round_eq ?_ (ih hw))
      exact round_end hends hdrop (by rwa [List.append_nil]) hhead hwne
    · rw [if_neg hfit]
      obtain ⟨hw, hlt, hmore⟩ := denotes_of_miss hno hfit h
      exact Costs.after (matchLoop_miss hno hlt hmore) (ih hw)

/-- The last piece, behind a star. -/
theorem costs_last (hno : star ∉ piece) (hmask : mask ≠ [star]) (hsuffix : star :: piece <:+ mask)
    (h : Denotes (.any :: (piece.map token ++ [])) w) :
    Costs mask ⟨piece ++ [], w, piece ++ [], w, true⟩ (spread mask [piece] w) := by
  rw [spread]
  obtain ⟨skipped, rfl⟩ := hsuffix
  cases hends : endsInStar (skipped ++ star :: piece) with
  | true =>
    rw [if_pos rfl]
    have hquest : ∀ b ∈ piece, b = quest := by
      rw [List.append_cons] at hends
      exact quest_of_endsInStar hends hno
    have hlen : piece.length ≤ w.length :=
      Nat.le_of_not_lt fun hshort => not_denotes_of_short hno hshort h
    exact Costs.after (matchLoop_through hno (agree_quests hquest hlen))
      (costs_one (round_done (Or.inr hends)))
  | false =>
    rw [if_neg Bool.false_ne_true]
    have hne : piece ≠ [] := by
      rintro rfl
      rw [endsInStar_of_getLast List.getLast?_concat hmask] at hends
      cases hends
    exact costs_seekEnd hno hne hends w h

theorem spread_cons (mask piece : Bytes) {rest : List Bytes} (h : rest ≠ []) (w : Bytes) :
    spread mask (piece :: rest) w = seek piece w + spread mask rest (behind piece w) := by
  obtain ⟨next, rest, rfl⟩ := List.exists_cons_of_ne_nil h
  rfl

theorem seek_nil (w : Bytes) : seek [] w = 0 ∧ behind [] w = w := by
  cases w with
  | nil => exact ⟨rfl, rfl⟩
  | cons a w => exact ⟨if_pos rfl, if_pos rfl⟩

/-- A mask has no star, or a first one. -/
theorem cut_at_star (m : Bytes) : star ∉ m ∨ ∃ piece m', m = piece ++ star :: m' ∧ star ∉ piece := by
  by_cases h : star ∈ m
  · obtain ⟨piece, m', hm, hno⟩ := List.eq_append_cons_of_mem h
    exact Or.inr ⟨piece, m', hm, hno⟩
  · exact Or.inl h

theorem map_token_cut (piece m : Bytes) :
    (piece ++ star :: m).map token = piece.map token ++ .any :: m.map token := by
  rw [List.map_append, List.map_cons, token_star]

/-- A star and what follows it. -/
theorem costs_star (hmask : mask ≠ [star]) (len : Nat) : ∀ m, m.length = len → star :: m <:+ mask →
    ∀ n ma na wild, Denotes (.any :: m.map token) n →
      Costs mask ⟨star :: m, n, ma, na, wild⟩ (spread mask (m.splitOn star) n) := by
  -- by induction on the length of the mask behind the star: each piece leads to the next star
  induction len using Nat.strong_induction_on with
  | _ len ih =>
  intro m hlen hsuffix n ma na wild h
  rcases cut_at_star m with hno | ⟨piece, m', rfl, hno⟩
  · rw [List.splitOn_eq_singleton hno]
    rw [← List.append_nil (m.map token)] at h
    refine costs_of_round_eq (round_congr ?_) (costs_last hno hmask hsuffix h)
    have hhead : m.head? ≠ some star := fun hhead => hno (List.mem_of_head? hhead)
    rw [skipStars_star, dropStars_of_head hhead, List.append_nil, skipStars_of_head]
    exact hhead
  · have hsuffix' : star :: m' <:+ mask :=
      (List.suffix_append (star :: piece) (star :: m')).trans hsuffix
    have hlt : m'.length < len := by
      rw [← hlen, List.length_append, List.length_cons]
      omega
    rw [List.splitOn_append_cons_self_of_not_mem hno, spread_cons mask piece (List.splitOn_ne_nil _ _)]
    rw [map_token_cut] at h
    by_cases hne : piece = []
    · subst hne
      rw [(seek_nil n).1, (seek_nil n).2, Nat.zero_add]
      refine costs_of_round_eq (round_congr ?_) (ih _ hlt m' rfl hsuffix' n ma na wild (denotes_any_any.mp h))
      rw [skipStars_star, skipStars_star, List.nil_append, dropStars_cons]
    · refine costs_of_round_eq (round_congr ?_)
        (costs_piece hno hne (fun n ma na => ih _ hlt m' rfl hsuffix' n ma na true) n h)
      have hhead : (piece ++ star :: m').head? ≠ some star := by
        obtain ⟨b, piece, rfl⟩ := List.exists_cons_of_ne_nil hne
        exact fun hb => hno (Option.some.inj hb ▸ List.mem_cons_self)
      rw [skipStars_star, dropStars_of_head hhead, skipStars_of_head]
      exact hhead

/-- `match` finds a name of the language if and only if its rounds are enough. -/
theorem matchMask_iff_effort {mask name : Bytes} (hlang : InLang mask name) :
    matchMask mask name = true ↔ effort mask name ≤ matchMaxCalls := by
  unfold matchMask
  by_cases hstar : mask = [star]
  · subst hstar
    rw [if_pos rfl]
    refine iff_of_true rfl ?_
    have hend : ∀ w, seekEnd [] w = 1 := by
      intro w
      induction w with
      | nil => rfl
      | cons a w ih =>
        rw [seekEnd, ih]
        rfl
    show 0 + seekEnd [] (name.drop 0) ≤ 512
    rw [hend]
    decide
  rw [if_neg hstar]
  unfold effort
  unfold InLang at hlang
  rcases cut_at_star mask with hno | ⟨piece, m, rfl, hno⟩
  · rw [List.splitOn_eq_singleton hno]
    rw [← List.append_nil (mask.map token)] at hlang
    obtain ⟨hfit, hnil⟩ := (denotes_piece_iff hno).mp hlang
    have hcosts : Costs mask ⟨mask ++ [], name, mask, name, false⟩ (mask.length + 1) :=
      Costs.after (matchLoop_through hno hfit) (costs_one (round_done (Or.inl hnil)))
    rw [List.append_nil] at hcosts
    exact hcosts matchMaxCalls
  · rw [map_token_cut] at hlang
    obtain ⟨hfit, hrest⟩ := (denotes_piece_iff hno).mp hlang
    have hcosts := Costs.after (matchLoop_through hno hfit)
      (costs_star hstar m.length m rfl (List.suffix_append _ _) _ (piece ++ star :: m) name false hrest)
    rw [List.splitOn_append_cons_self_of_not_mem hno]
    obtain ⟨next, rest, hpieces⟩ := List.exists_cons_of_ne_nil (List.splitOn_ne_nil star m)
    rw [hpieces] at hcosts ⊢
    exact hcosts matchMaxCalls

end Rounds

-- ============================================================================
-- Bans
-- ============================================================================

/-- A ban catches every user in its language if and only if the pieces of the ban between
    its stars are found in `nick!user@host` with at most 512 comparisons. -/
theorem ban_catches_iff (ban nick user host : Bytes) :
    (InLang ban (Chan.userHost nick user host) → matchMask ban (Chan.userHost nick user host) = true) ↔
      (InLang ban (Chan.userHost nick user host) →
        effort ban (Chan.userHost nick user host) ≤ matchMaxCalls) :=
  forall_congr' matchMask_iff_effort

/-- A stored ban and a user, of the lengths that the callers of `match` admit, where the
    rounds are not enough: `*aaa...b` against a host with twice as many. -/
theorem ban_cut_short :
    ¬ ∀ ban nick user host : Bytes, ban.length ≤ Chan.banLen - 1 → nick.length < nickLen →
      user.length ≤ userLen → host.length ≤ hostLen →
      InLang ban (Chan.userHost nick user host) →
      matchMask ban (Chan.userHost nick user host) = true := by
  intro h
  have hlong := h ([42, 33, 42, 64, 42] ++ List.replicate 31 97 ++ [98]) [110] [117]
    (List.replicate 62 97 ++ [98]) (by decide) (by decide) (by decide) (by decide) ?_
  · revert hlong
    decide +kernel
  · have hpiece : Denotes ((List.replicate 31 (97 : UInt8) ++ [98]).map token ++ [])
        (List.replicate 31 97 ++ [98]) := by
      have hno : star ∉ List.replicate 31 (97 : UInt8) ++ [98] := by decide
      rw [denotes_piece_iff hno]
      exact ⟨by decide, rfl⟩
    exact ⟨33 :: 117 :: 64 :: (List.replicate 62 97 ++ [98]), ⟨[110], rfl⟩, 33, _, rfl, rfl,
      64 :: (List.replicate 62 97 ++ [98]), ⟨[117], rfl⟩, 64, _, rfl, rfl,
      List.replicate 31 97 ++ [98], ⟨List.replicate 31 97, rfl⟩, hpiece⟩

end Bluebox.Glob
