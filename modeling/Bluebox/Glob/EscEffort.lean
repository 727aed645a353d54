/-
  Bluebox.Glob.EscEffort

  How many rounds `match_esc` needs to come to the end of its mask for the first time.

  The stars that no backslash escapes cut a mask into pieces.  The first is held against
  the start of the name, each next one against every place behind the one before until
  it fits; a byte that is compared is a round, and so is a backslash.  `toGo` counts
  the same from a cursor on.
-/
import Bluebox.Glob.Escape

namespace Bluebox.Glob

open Bluebox.Lib

-- ============================================================================
-- Pieces and places
-- ============================================================================

/-- The pieces of a mask, with their backslashes; `esc` says that a backslash is open. -/
def pieces : Bool → Bytes → List Bytes
  | _, [] => [[]]
  | esc, b :: s =>
    if esc = false ∧ b = star then [] :: pieces false s
    else (pieces (!esc && b == backslash) s).modifyHead (b :: ·)

/-- The rounds in which a piece is held against a text, and what is left of the text if the
    piece fits. -/
def hold : Bool → Bytes → Bytes → Nat × Option Bytes
  | _, [], w => (0, some w)
  | esc, b :: piece, w =>
    if esc = false ∧ b = backslash then ((hold true piece w).1 + 1, (hold true piece w).2)
    else match w with
      | [] => (1, none)
      | a :: w =>
        if escMatch1 esc b a then ((hold false piece w).1 + 1, (hold false piece w).2) else (1, none)

/-- The same, at one place after the other until the piece fits. -/
def seekHold (piece : Bytes) : Bytes → Nat × Option Bytes
  | [] => hold false piece []
  | a :: w =>
    match hold false piece (a :: w) with
    | (k, some u) => (k, some u)
    | (k, none) => (k + (seekHold piece w).1, (seekHold piece w).2)

/-- The rounds for the pieces behind a star. -/
def seekAll : List Bytes → Bytes → Nat
  | [], _ => 0
  | piece :: rest, w => (seekHold piece w).1 + ((seekHold piece w).2.map (seekAll rest)).getD 0

/-- The rounds to the end of a mask. -/
def escEffort (mask name : Bytes) : Nat :=
  match pieces false mask with
  | [] => 0
  | piece :: rest => (hold false piece name).1 + ((hold false piece name).2.map (seekAll rest)).getD 0 + 1

/-- The rounds from a cursor to the end of its mask, where a backslash is open or not. -/
def toGo (esc : Bool) (c : EscCursor) : Nat :=
  match pieces esc c.m with
  | [] => 0
  | piece :: rest =>
    (hold esc piece c.n).1 +
      ((hold esc piece c.n).2.map (seekAll rest)).getD (if c.wild then seekAll (pieces false c.ma) c.na.tail else 0) + 1

section ToGo

variable {esc wild : Bool} {a b : UInt8} {m n ma na w : Bytes} {quote : Nat} {c : EscCursor}

theorem pieces_cons (h : esc = false → b ≠ star) (s : Bytes) :
    pieces esc (b :: s) = (pieces (!esc && b == backslash) s).modifyHead (b :: ·) := by
  rw [pieces, if_neg fun hb => h hb.1 hb.2]

theorem pieces_ne_nil (s : Bytes) : ∀ esc, ∃ piece rest, pieces esc s = piece :: rest := by
  induction s with
  | nil => exact fun _ => ⟨[], [], rfl⟩
  | cons b s ih =>
    intro esc
    by_cases hb : esc = false ∧ b = star
    · exact ⟨[], _, by rw [pieces, if_pos hb]⟩
    · obtain ⟨piece, rest, hs⟩ := ih (!esc && b == backslash)
      exact ⟨b :: piece, rest, by rw [pieces, if_neg hb, hs]; rfl⟩

theorem toGo_pos (esc : Bool) (c : EscCursor) : 0 < toGo esc c := by
  obtain ⟨piece, rest, hm⟩ := pieces_ne_nil c.m esc
  rw [toGo, hm]
  exact Nat.succ_pos _

theorem toGo_end (hm : c.m = []) : toGo esc c = 1 := by
  rw [toGo, hm]
  rfl

/-- A backslash is a round. -/
theorem toGo_backslash (hm : c.m = backslash :: m) (quote : Nat) :
    toGo false c = toGo true { c with m := m, quote := quote } + 1 := by
  obtain ⟨piece, rest, hrest⟩ := pieces_ne_nil m true
  have hpieces : pieces false (backslash :: m) = (backslash :: piece) :: rest := by
    rw [pieces_cons fun _ => by decide]
    show List.modifyHead _ (pieces true m) = _
    rw [hrest]
    rfl
  simp only [toGo, hm, hpieces, hrest, hold, true_and, if_true]
  omega

theorem hold_cons (h : esc = false → b ≠ backslash) (piece : Bytes) :
    hold esc (b :: piece) (a :: w) =
      if escMatch1 esc b a then ((hold false piece w).1 + 1, (hold false piece w).2) else (1, none) := by
  rw [hold, if_neg fun hb => h hb.1 hb.2]

theorem pieces_byte (h : esc = false → b ≠ star ∧ b ≠ backslash) {piece : Bytes} {rest : List Bytes}
    (hm : pieces false m = piece :: rest) : pieces esc (b :: m) = (b :: piece) :: rest := by
  have hopen : (!esc && b == backslash) = false := by
    cases esc with
    | true => rfl
    | false => exact beq_eq_false_iff_ne.mpr (h rfl).2
  rw [pieces_cons fun he => (h he).1, hopen, hm]
  rfl

/-- A byte that is taken is a round. -/
theorem toGo_take (h : esc = false → b ≠ star ∧ b ≠ backslash) (htest : escMatch1 esc b a = true) (quote' : Nat) :
    toGo esc ⟨b :: m, a :: n, ma, na, wild, quote⟩ = toGo false ⟨m, n, ma, na, wild, quote'⟩ + 1 := by
  obtain ⟨piece, rest, hm⟩ := pieces_ne_nil m false
  simp only [toGo, pieces_byte h hm, hm, hold_cons fun he => (h he).2, htest, if_true]
  omega

/-- So is one that is not, and the next place follows. -/
theorem toGo_miss (h : esc = false → b ≠ star ∧ b ≠ backslash) (htest : ¬ escMatch1 esc b a = true) :
    toGo esc ⟨b :: m, a :: n, ma, na, true, quote⟩ = seekAll (pieces false ma) na.tail + 2 := by
  obtain ⟨piece, rest, hm⟩ := pieces_ne_nil m false
  simp only [toGo, pieces_byte h hm, hold_cons fun he => (h he).2, htest, Bool.false_eq_true, if_false, Option.map_none, Option.getD_none, if_true]
  omega

/-- Behind a star the place is where the cursor is. -/
theorem toGo_place (hfit : ∀ piece rest, pieces false ma = piece :: rest → w = [] → (hold false piece []).2 ≠ none) :
    toGo false ⟨ma, w, ma, w, true, quote⟩ = seekAll (pieces false ma) w + 1 := by
  obtain ⟨piece, rest, hma⟩ := pieces_ne_nil ma false
  simp only [toGo, hma, seekAll]
  cases w with
  | nil =>
    obtain ⟨u, hu⟩ := Option.ne_none_iff_exists'.mp (hfit piece rest hma rfl)
    simp only [seekHold, hu, Option.map_some, Option.getD_some]
  | cons a w =>
    rw [seekHold]
    cases hhold : hold false piece (a :: w) with
    | mk k r =>
      cases r with
      | some u => rfl
      | none =>
        simp only [Option.map_none, Option.getD_none, if_true, List.tail_cons]
        omega

theorem seekAll_star (m w : Bytes) : seekAll (pieces false (star :: m)) w = seekAll (pieces false m) w := by
  have hpieces : pieces false (star :: m) = [] :: pieces false m := if_pos ⟨rfl, rfl⟩
  have hhold : seekHold [] w = (0, some w) := by cases w <;> rfl
  rw [hpieces, seekAll, hhold]
  exact Nat.zero_add _

/-- Stars are no rounds. -/
theorem seekAll_dropStars (m w : Bytes) :
    seekAll (pieces false (m.dropWhile (· == star))) w = seekAll (pieces false m) w := by
  induction m with
  | nil => rfl
  | cons b m ih =>
    by_cases hb : b = star
    · subst hb
      rw [List.dropWhile_cons_of_pos (by decide), ih, seekAll_star]
    · rw [List.dropWhile_cons_of_neg (by simpa using hb)]

theorem toGo_star (hm : c.m = star :: m) :
    toGo false c = seekAll (pieces false (m.dropWhile (· == star))) c.n + 1 := by
  have hpieces : pieces false (star :: m) = [] :: pieces false m := if_pos ⟨rfl, rfl⟩
  rw [seekAll_dropStars]
  simp only [toGo, hm, hpieces, hold, Option.map_some, Option.getD_some, Nat.zero_add]

end ToGo

end Bluebox.Glob
