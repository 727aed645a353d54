/-
  Bluebox.Glob.Match

  `match` of `libratboxcore/match.c` against the language of its masks.

  Each round keeps that the search is exact: the name is in the language of the mask if
  and only if what is left can be found from the place behind the last star.  A rank
  that falls with every round bounds their number.
-/
import Bluebox.Lib.Glob
import Bluebox.Match

namespace Bluebox.Glob

open Bluebox.Lib Bluebox.Lib.Glob

-- ============================================================================
-- The language of a mask
-- ============================================================================

/-- The token of a byte of a mask. -/
def token (b : UInt8) : Token UInt8 :=
  if b = star then .any else .one fun a => b == quest || toLower b == toLower a

/-- The language of a mask: a star is any string, a question mark any byte, and other
    bytes are compared in lower case. -/
def InLang (mask name : Bytes) : Prop := Denotes (mask.map token) name

theorem token_star : token star = .any := if_pos rfl

theorem token_of_ne {b : UInt8} (h : b ≠ star) :
    token b = .one fun a => b == quest || toLower b == toLower a := if_neg h

/-- The cursor of `match` as a search. -/
def search (c : Cursor) : Search UInt8 := ⟨c.m.map token, c.n, c.ma.map token, c.na, c.wild⟩

/-- What a round of `match` keeps: the search is exact, and `ma` is the mask, or what
    follows a run of its stars. -/
structure Walks (mask name : Bytes) (c : Cursor) : Prop where
  exact : Exact (mask.map token) name (search c)
  place : c.m <:+ c.ma
  cut : ∃ skipped, mask = skipped ++ c.ma ∧ (c.wild = false → skipped = []) ∧
    (c.wild = true → skipped.getLast? = some star ∧ c.ma.head? ≠ some star)

/-- What falls with every round. -/
def rank (c : Cursor) : Nat := c.na.length * (c.ma.length + 1) + c.m.length

-- ============================================================================
-- Rounds
-- ============================================================================

section Rounds

variable {mask name : Bytes} {c c' : Cursor}

theorem Walks.start (mask name : Bytes) : Walks mask name ⟨mask, name, mask, name, false⟩ where
  exact := Exact.start _ _
  place := List.suffix_rfl
  cut := ⟨[], rfl, fun _ => rfl, fun h => Bool.noConfusion h⟩

theorem Walks.lengths (h : Walks mask name c) :
    c.ma.length + c.n.length = c.na.length + c.m.length ∧ c.n.length ≤ c.na.length := by
  obtain ⟨tests, x, hpa, hwa, hx⟩ := h.exact.taken
  have hm := congrArg List.length hpa
  have hn := congrArg List.length hwa
  simp only [search, List.length_map, List.length_append, hx.length_eq] at hm hn
  omega

theorem dropStars_cons (m : Bytes) :
    (star :: m).dropWhile (· == star) = m.dropWhile (· == star) := rfl

/-- Stars behind a star are skipped with it. -/
theorem exact_dropStars {full : List (Token UInt8)} {n : Bytes} (m : Bytes)
    (h : Exact full name ⟨m.map token, n, m.map token, n, true⟩) :
    Exact full name ⟨(m.dropWhile (· == star)).map token, n, (m.dropWhile (· == star)).map token, n, true⟩ := by
  induction m with
  | nil => exact h
  | cons b m ih =>
    by_cases hb : b = star
    · subst hb
      rw [dropStars_cons]
      rw [List.map_cons, token_star] at h
      exact ih h.skip
    · rw [List.dropWhile_cons_of_neg (by simpa using hb)]
      exact h

theorem head_dropStars (m : Bytes) : (m.dropWhile (· == star)).head? ≠ some star := by
  intro h
  have hhead := List.head?_dropWhile_not (· == star) m
  rw [h] at hhead
  simp at hhead

theorem Walks.skipStars (h : Walks mask name c) :
    Walks mask name c.skipStars ∧ c.skipStars.m.head? ≠ some star ∧ rank c.skipStars ≤ rank c := by
  unfold Cursor.skipStars
  by_cases hm : c.m.head? = some star
  · rw [if_pos hm]
    obtain ⟨m, hcons⟩ : ∃ m, c.m = star :: m := List.head?_eq_some_iff.mp hm
    have hdrop : c.m.dropWhile (· == star) = m.dropWhile (· == star) := by
      rw [hcons, dropStars_cons]
    refine ⟨⟨?_, List.suffix_rfl, ?_⟩, head_dropStars c.m, ?_⟩
    · have hexact := h.exact
      unfold search at hexact
      rw [hcons, List.map_cons, token_star] at hexact
      dsimp only [search]
      rw [hdrop]
      exact exact_dropStars m hexact.skip
    · obtain ⟨skipped, hmask, -⟩ := h.cut
      obtain ⟨first, hfirst⟩ := h.place
      have hne : c.m.takeWhile (· == star) ≠ [] := by
        rw [hcons]
        exact List.cons_ne_nil _ _
      refine ⟨skipped ++ (first ++ c.m.takeWhile (· == star)), ?_, fun hw => Bool.noConfusion hw,
        fun _ => ⟨?_, head_dropStars c.m⟩⟩
      · rw [hmask, ← hfirst, List.append_assoc, List.append_assoc, List.takeWhile_append_dropWhile]
      · rw [← List.append_assoc, List.getLast?_append_of_ne_nil _ hne,
          List.getLast?_eq_getLast_of_ne_nil hne]
        have hlast := List.mem_takeWhile_imp (List.getLast_mem hne)
        exact congrArg some (eq_of_beq hlast)
    · have hlens := h.lengths
      have hle : (c.m.dropWhile (· == star)).length ≤ c.m.length := List.length_dropWhile_le _ _
      have hplace := h.place.length_le
      exact Nat.add_le_add (Nat.mul_le_mul hlens.2 (by dsimp only; omega)) hle
  · rw [if_neg hm]
    exact ⟨h, hm, le_refl _⟩

/-- Back to the star, one byte further on. -/
theorem Walks.back (h : Walks mask name c) (hwild : c.wild = true) (hna : c.na ≠ [])
    (hbad : ¬ Denotes (c.m.map token) c.n) :
    Walks mask name { c with m := c.ma, n := c.na.tail, na := c.na.tail } ∧
      rank { c with m := c.ma, n := c.na.tail, na := c.na.tail } < rank c := by
  obtain ⟨m, n, ma, na, wild⟩ := c
  dsimp only at hwild hna hbad
  subst hwild
  obtain ⟨a, na, rfl⟩ := List.exists_cons_of_ne_nil hna
  refine ⟨⟨h.exact.back hbad, List.suffix_rfl, h.cut⟩, ?_⟩
  dsimp only [rank, List.tail_cons]
  rw [List.length_cons, Nat.succ_mul]
  omega

/-- Bytes are compared as the tokens say. -/
theorem denotes_cons_iff {a b : UInt8} {m n : Bytes} (ha : a ≠ star) :
    Denotes ((a :: m).map token) (b :: n) ↔
      ¬ (toLower a ≠ toLower b ∧ a ≠ quest) ∧ Denotes (m.map token) n := by
  rw [List.map_cons, token_of_ne ha, denotes_one_cons, Bool.or_eq_true, beq_iff_eq, beq_iff_eq,
    not_and_or, not_not, not_not, or_comm]

theorem Walks.advance (h : Walks mask name c) (hm : c.m ≠ []) (hstar : c.m.head? ≠ some star)
    (hn : c.n ≠ []) :
    match c.advance with
    | some c' => Walks mask name c' ∧ rank c' < rank c
    | none => ¬ InLang mask name := by
  obtain ⟨m, n, ma, na, wild⟩ := c
  dsimp only at hm hstar hn
  obtain ⟨a, m, rfl⟩ := List.exists_cons_of_ne_nil hm
  obtain ⟨b, n, rfl⟩ := List.exists_cons_of_ne_nil hn
  have ha : a ≠ star := fun he => hstar (congrArg some he)
  unfold Cursor.advance
  dsimp only [List.headD_cons, List.tail_cons]
  by_cases hdiff : toLower a ≠ toLower b ∧ a ≠ quest
  · rw [if_pos hdiff]
    have hbad : ¬ Denotes ((a :: m).map token) (b :: n) := fun hd =>
      ((denotes_cons_iff ha).mp hd).1 hdiff
    cases wild with
    | true =>
      have hna : na ≠ [] := by
        rintro rfl
        have hlens := h.lengths.2
        simp at hlens
      exact h.back rfl hna hbad
    | false => exact fun hlang => hbad (h.exact.only.mp hlang)
  · rw [if_neg hdiff]
    obtain ⟨first, hfirst⟩ := h.place
    refine ⟨⟨?_, ⟨first ++ [a], ?_⟩, h.cut⟩, ?_⟩
    · have hexact := h.exact
      unfold search at hexact
      rw [List.map_cons, token_of_ne ha] at hexact
      refine hexact.take ?_
      rw [Bool.or_eq_true, beq_iff_eq, beq_iff_eq]
      by_cases hq : a = quest
      · exact Or.inl hq
      · exact Or.inr (not_not.mp fun hne => hdiff ⟨hne, hq⟩)
    · rw [List.append_assoc]
      exact hfirst
    · exact Nat.lt_succ_self _

/-- Behind its last element that is kept, a list has only such as are dropped. -/
theorem forall_of_rdropWhile {α : Type} {p : α → Bool} {y : α} {l r : List α}
    (hlast : ((l ++ r).rdropWhile p).getLast? = some y) (hy : y ∉ r) : ∀ x ∈ r, p x = true := by
  induction r using List.reverseRecOn with
  | nil => exact fun x hx => absurd hx List.not_mem_nil
  | append_singleton r b ih =>
    rw [← List.append_assoc] at hlast
    by_cases hb : p b = true
    · rw [List.rdropWhile_concat_pos _ _ _ hb] at hlast
      intro x hx
      rcases List.mem_append.mp hx with hx | hx
      · exact ih hlast (fun hmem => hy (List.mem_append_left _ hmem)) x hx
      · rw [List.mem_singleton.mp hx]
        exact hb
    · rw [List.rdropWhile_concat_neg _ _ _ hb, List.getLast?_concat] at hlast
      obtain rfl := Option.some.inj hlast
      exact absurd (List.mem_append_right _ (List.mem_singleton_self _)) hy

/-- Behind its last star, a mask that passes the test at its end has question marks only. -/
theorem quest_of_endsInStar {skipped ma : Bytes} (hends : endsInStar (skipped ++ ma) = true)
    (hno : star ∉ ma) : ∀ b ∈ ma, b = quest := by
  have hlast : ((skipped ++ ma).rdropWhile (· == quest)).getLast? = some star :=
    eq_of_beq (Bool.and_eq_true_iff.mp hends).1
  exact fun b hb => eq_of_beq (forall_of_rdropWhile hlast hno b hb)

/-- A mask that ends in a star passes it, but for the star alone. -/
theorem endsInStar_of_getLast {mask : Bytes} (hlast : mask.getLast? = some star) (hne : mask ≠ [star]) :
    endsInStar mask = true := by
  obtain ⟨first, rfl⟩ : ∃ first, mask = first ++ [star] := by
    obtain ⟨h, hget⟩ := List.getLast?_eq_some_iff.mp hlast
    exact ⟨h, hget⟩
  unfold endsInStar
  rw [List.rdropWhile_concat_neg _ _ _ (by decide)]
  cases first with
  | nil => exact absurd rfl hne
  | cons b first =>
    dsimp only
    rw [hlast]
    simp

/-- The walk has reached the end of the mask, and there is more of the name. -/
theorem Walks.atEnd (hne : mask ≠ [star]) (h : Walks mask name c) (hm : c.m = []) (hn : c.n ≠ []) :
    (endsInStar mask = true → InLang mask name) ∧
    (endsInStar mask = false → c.wild = true → c.ma ≠ [] ∧ c.na.tail ≠ []) := by
  obtain ⟨m, n, ma, na, wild⟩ := c
  dsimp only at hm hn
  subst hm
  obtain ⟨skipped, hmask, hfirst, hstar⟩ := h.cut
  dsimp only at hmask hfirst hstar
  obtain ⟨tests, x, hpa, hwa, hx⟩ := h.exact.taken
  dsimp only [search] at hpa hwa
  rw [List.map_nil, List.append_nil] at hpa
  have hno : star ∉ ma := by
    intro hmem
    have htok : Token.any ∈ ma.map token := List.mem_map.mpr ⟨star, hmem, token_star⟩
    rw [hpa] at htok
    obtain ⟨test, -, heq⟩ := List.mem_map.mp htok
    cases heq
  constructor
  · intro hends
    have hquest : ∀ b ∈ ma, b = quest := quest_of_endsInStar (hmask ▸ hends) hno
    cases wild with
    | true =>
      refine h.exact.trailing ?_
      intro t ht
      obtain ⟨b, hb, rfl⟩ := List.mem_map.mp ht
      obtain rfl := hquest b hb
      exact ⟨_, token_of_ne (by decide), fun a => rfl⟩
    | false =>
      -- without a star behind it, the mask is what was walked, and has none
      obtain rfl := hfirst rfl
      rw [List.nil_append] at hmask
      have hlast : (mask.rdropWhile (· == quest)).getLast? = some star :=
        eq_of_beq (Bool.and_eq_true_iff.mp hends).1
      have hmem : star ∈ mask := (List.rdropWhile_prefix _ _).subset (List.mem_of_getLast? hlast)
      exact absurd (hmask ▸ hmem) hno
  · intro hends hwild
    dsimp only at hwild
    obtain ⟨hlast, -⟩ := hstar hwild
    have hma : ma ≠ [] := by
      rintro rfl
      rw [List.append_nil] at hmask
      subst hmask
      rw [endsInStar_of_getLast hlast hne] at hends
      cases hends
    refine ⟨hma, ?_⟩
    have hlen : 0 < x.length := by
      rw [← hx.length_eq, ← List.length_map (f := Token.one), ← hpa, List.length_map]
      exact List.length_pos_iff.mpr hma
    have hpos := List.length_pos_iff.mpr hn
    dsimp only
    rw [hwa, ← List.length_pos_iff, List.length_tail, List.length_append]
    omega

/-- A round says whether the name is in the language, or walks on. -/
theorem Walks.round (hne : mask ≠ [star]) (h : Walks mask name c) :
    match c.round mask with
    | .inl verdict => verdict = true ↔ InLang mask name
    | .inr c' => Walks mask name c' ∧ rank c' < rank c := by
  obtain ⟨hd, hhead, hrank⟩ := h.skipStars
  unfold Cursor.round
  dsimp only
  generalize c.skipStars = d at hd hhead hrank
  obtain ⟨m, n, ma, na, wild⟩ := d
  dsimp only at hhead ⊢
  by_cases hm : m = []
  · rw [if_pos hm]
    by_cases hn : n = []
    · rw [if_pos hn]
      refine iff_of_true rfl (hd.exact.of_here ?_)
      dsimp only [search]
      rw [hm, hn]
      rfl
    rw [if_neg hn]
    have hbad : ¬ Denotes (m.map token) n := by
      rw [hm]
      exact hn
    obtain ⟨hyes, hmore⟩ := hd.atEnd hne hm hn
    cases hends : endsInStar mask with
    | true =>
      rw [if_pos rfl]
      exact iff_of_true rfl (hyes hends)
    | false =>
      rw [if_neg Bool.false_ne_true]
      cases wild with
      | false => exact iff_of_false Bool.false_ne_true fun hlang => hbad (hd.exact.only.mp hlang)
      | true =>
        rw [Bool.not_true, if_neg Bool.false_ne_true]
        obtain ⟨hma, htail⟩ := hmore hends rfl
        have hna : na ≠ [] := fun hnil => htail (by rw [hnil]; rfl)
        obtain ⟨hback, hless⟩ := hd.back rfl hna hbad
        obtain ⟨_, _, _, hcut⟩ := hd.cut
        have hadv := hback.advance hma (hcut rfl).2 htail
        revert hadv
        cases (⟨ma, na.tail, ma, na.tail, true⟩ : Cursor).advance with
        | none => exact fun hno => iff_of_false Bool.false_ne_true hno
        | some c' => exact fun hc' => ⟨hc'.1, by omega⟩
  · rw [if_neg hm]
    by_cases hn : n = []
    · rw [if_pos hn]
      obtain ⟨b, m, rfl⟩ := List.exists_cons_of_ne_nil hm
      have hb : b ≠ star := fun he => hhead (congrArg some he)
      have hfalse : ((b :: m).dropWhile (· == star)).isEmpty = false := by
        rw [List.dropWhile_cons_of_neg (by simpa using hb)]
        rfl
      dsimp only
      rw [hfalse]
      refine iff_of_false Bool.false_ne_true ?_
      have hexact := hd.exact
      unfold search at hexact
      rw [hn, List.map_cons, token_of_ne hb] at hexact
      exact hexact.starved
    · rw [if_neg hn]
      have hadv := hd.advance hm hhead hn
      revert hadv
      cases (⟨m, n, ma, na, wild⟩ : Cursor).advance with
      | none => exact fun hno => iff_of_false Bool.false_ne_true hno
      | some c' => exact fun hc' => ⟨hc'.1, by omega⟩

end Rounds

-- ============================================================================
-- Runs
-- ============================================================================

section Runs

variable {mask name : Bytes}

theorem matchLoop_sound (hne : mask ≠ [star]) (calls : Nat) : ∀ {c : Cursor}, Walks mask name c →
    matchLoop mask calls c = true → InLang mask name := by
  induction calls with
  | zero => exact fun _ h => Bool.noConfusion h
  | succ calls ih =>
    intro c hc h
    have hround := hc.round hne
    rw [matchLoop] at h
    cases hr : c.round mask with
    | inl verdict =>
      rw [hr] at h hround
      exact hround.mp h
    | inr c' =>
      rw [hr] at h hround
      exact ih hround.1 h

theorem matchLoop_complete (hne : mask ≠ [star]) (hlang : InLang mask name) (calls : Nat) :
    ∀ {c : Cursor}, Walks mask name c → rank c < calls → matchLoop mask calls c = true := by
  induction calls with
  | zero => exact fun _ h => absurd h (Nat.not_lt_zero _)
  | succ calls ih =>
    intro c hc hrank
    have hround := hc.round hne
    rw [matchLoop]
    cases hr : c.round mask with
    | inl verdict =>
      rw [hr] at hround
      exact hround.mpr hlang
    | inr c' =>
      rw [hr] at hround
      exact ih hround.1 (by omega)

theorem inLang_star (name : Bytes) : InLang [star] name :=
  ⟨[], List.nil_suffix, rfl⟩

/-- What `match` accepts is in the language of the mask. -/
theorem matchMask_sound (h : matchMask mask name = true) : InLang mask name := by
  unfold matchMask at h
  by_cases hstar : mask = [star]
  · rw [hstar]
    exact inLang_star name
  · rw [if_neg hstar] at h
    exact matchLoop_sound hstar matchMaxCalls (.start mask name) h

/-- `match` accepts exactly the language of its mask, as far as its rounds last. -/
theorem matchMask_exact (mask name : Bytes) :
    (matchMask mask name = true → InLang mask name) ∧
    (InLang mask name → (mask.length + 1) * (name.length + 1) ≤ matchMaxCalls →
      matchMask mask name = true) := by
  refine ⟨matchMask_sound, fun hlang hcalls => ?_⟩
  unfold matchMask
  by_cases hstar : mask = [star]
  · rw [if_pos hstar]
  · rw [if_neg hstar]
    refine matchLoop_complete hstar hlang matchMaxCalls (.start mask name) ?_
    have hexpand : (mask.length + 1) * (name.length + 1) =
        name.length * (mask.length + 1) + mask.length + 1 := by
      rw [Nat.mul_comm, Nat.succ_mul]
      rfl
    dsimp only [rank]
    omega

end Runs

end Bluebox.Glob
