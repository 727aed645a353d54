/-
  Bluebox.Bandb.Params

  What `rb_string_to_array` makes of a line: words that stand between blanks come
  back as they are, and no other text comes back as a parameter that is not the last
  one.
-/
import Bluebox.Bandb.Basic

namespace Bluebox.Bandb

open Bluebox.Lib

/-- A text that a line can hold as a parameter: it has no blanks and does not look
    like the last parameter. -/
structure Word (w : Bytes) : Prop where
  ne_nil : w ≠ []
  no_blank : ∀ b ∈ w, b ≠ 32
  no_colon : w.head? ≠ some 58

instance (w : Bytes) : Decidable (Word w) :=
  decidable_of_iff (w ≠ [] ∧ w.all (· != 32) = true ∧ w.head? ≠ some 58)
    ⟨fun h => ⟨h.1, fun b hb => bne_iff_ne.mp (List.all_eq_true.mp h.2.1 b hb), h.2.2⟩,
      fun h => ⟨h.1, List.all_eq_true.mpr fun b hb => bne_iff_ne.mpr (h.2 b hb), h.3⟩⟩

/-- Words, each with a blank after it, and an end. -/
def spaced (ws : List Bytes) (last : Bytes) : Bytes := ws.foldr (fun w s => w ++ 32 :: s) last

/-- An end of a line that is read as one last parameter. -/
inductive LastParam : Bytes → Bytes → Prop
  | colon (r : Bytes) : LastParam (58 :: r) r
  | word {r : Bytes} (h : Word r) : LastParam r r

-- ============================================================================
-- Reading words back
-- ============================================================================

theorem Word.strchr_blank {w : Bytes} (h : Word w) (s : Bytes) :
    strchr 32 (w ++ 32 :: s) = some (w, s) :=
  strchr_append (fun hmem => h.no_blank 32 hmem rfl) s

theorem Word.head_append {w : Bytes} (h : Word w) (s : Bytes) :
    (w ++ s).head? ≠ some 58 ∧ (w ++ s).dropWhile (· == 32) = w ++ s ∧ w ++ s ≠ [] := by
  obtain ⟨b, rest, rfl⟩ := List.exists_cons_of_ne_nil h.ne_nil
  refine ⟨h.no_colon, ?_, List.cons_ne_nil _ _⟩
  refine List.dropWhile_cons_of_neg ?_
  simpa using h.no_blank b List.mem_cons_self

/-- The loop takes a word and goes on. -/
theorem Word.paramLoop_cons {w rest : Bytes} (hw : Word w)
    (hrest : rest.dropWhile (· == 32) = rest ∧ rest ≠ []) (more : Nat) :
    paramLoop (more + 1) (w ++ 32 :: rest) = w :: paramLoop more rest := by
  rw [paramLoop.eq_def, if_neg (hw.head_append _).1, hw.strchr_blank]
  simp only [hrest.1, if_neg hrest.2]

theorem spaced_start {ws : List Bytes} {last : Bytes} (hws : ∀ w ∈ ws, Word w)
    (hlast : last.dropWhile (· == 32) = last ∧ last ≠ []) :
    (spaced ws last).dropWhile (· == 32) = spaced ws last ∧ spaced ws last ≠ [] := by
  cases ws with
  | nil => exact hlast
  | cons w ws => exact ((hws w List.mem_cons_self).head_append _).2

/-- Words come back in front of what the end of the line gives. -/
theorem paramLoop_spaced {last : Bytes} {out : List Bytes}
    (hlast : last.dropWhile (· == 32) = last ∧ last ≠ [])
    (hout : ∀ more, paramLoop more last = out) : ∀ (ws : List Bytes) (more : Nat),
    (∀ w ∈ ws, Word w) → ws.length ≤ more → paramLoop more (spaced ws last) = ws ++ out := by
  intro ws
  induction ws with
  | nil => intro more _ _; exact hout more
  | cons w ws ih =>
    intro more hws hlen
    have hrest : ∀ x ∈ ws, Word x := fun x hx => hws x (List.mem_cons_of_mem w hx)
    obtain ⟨more, rfl⟩ : ∃ m, more = m + 1 := ⟨more - 1, by simp at hlen; omega⟩
    have hlen' : ws.length ≤ more := by simpa using hlen
    have hline : spaced (w :: ws) last = w ++ 32 :: spaced ws last := rfl
    rw [hline, (hws w List.mem_cons_self).paramLoop_cons (spaced_start hrest hlast),
      ih more hrest hlen', List.cons_append]

theorem rbStringToArray_of_paramLoop {ws out : List Bytes} {last : Bytes} {maxpara : Nat}
    (hws : ∀ w ∈ ws, Word w) (hlen : ws.length + 2 ≤ maxpara)
    (hlast : last.dropWhile (· == 32) = last ∧ last ≠ [])
    (hout : ∀ more, paramLoop more last = out) :
    rbStringToArray (spaced ws last) maxpara = ws ++ out := by
  obtain ⟨hdrop, hne⟩ := spaced_start hws hlast
  rw [rbStringToArray, hdrop, if_neg hne]
  exact paramLoop_spaced hlast hout ws _ hws (by omega)

/-- A line that ends in a last parameter. -/
theorem rbStringToArray_spaced {ws : List Bytes} {last r : Bytes} {maxpara : Nat}
    (hws : ∀ w ∈ ws, Word w) (hlast : LastParam last r) (hlen : ws.length + 2 ≤ maxpara) :
    rbStringToArray (spaced ws last) maxpara = ws ++ [r] := by
  refine rbStringToArray_of_paramLoop hws hlen ?_ fun more => ?_
  · cases hlast with
    | colon r => exact ⟨List.dropWhile_cons_of_neg (by decide), List.cons_ne_nil _ _⟩
    | word h => simpa only [List.append_nil] using (h.head_append []).2
  · rw [paramLoop.eq_def]
    cases hlast with
    | colon r => rw [if_pos List.head?_cons, List.tail_cons]
    | word h =>
      rw [if_neg h.no_colon, strchr_eq_none_iff.mpr fun hmem => h.no_blank 32 hmem rfl]

/-- A line that ends in a blank has only its words. -/
theorem rbStringToArray_blank {ws : List Bytes} {w : Bytes} {maxpara : Nat}
    (hws : ∀ x ∈ ws, Word x) (hw : Word w) (hlen : ws.length + 2 ≤ maxpara) :
    rbStringToArray (spaced ws (w ++ [32])) maxpara = ws ++ [w] := by
  refine rbStringToArray_of_paramLoop hws hlen (hw.head_append _).2 fun more => ?_
  rw [paramLoop.eq_def, if_neg (hw.head_append _).1, hw.strchr_blank]
  rfl

-- ============================================================================
-- Only words come back
-- ============================================================================

theorem paramLoop_ne_nil (more : Nat) (xbuf : Bytes) : paramLoop more xbuf ≠ [] := by
  rw [paramLoop.eq_def]
  split
  · exact List.cons_ne_nil _ _
  · split
    · exact List.cons_ne_nil _ _
    · split
      · exact List.cons_ne_nil _ _
      · split
        · exact List.cons_ne_nil _ _
        · exact List.cons_ne_nil _ _

theorem word_of_strchr {xbuf word p : Bytes} (hcolon : xbuf.head? ≠ some 58)
    (hblank : xbuf.head? ≠ some 32) (h : strchr 32 xbuf = some (word, p)) : Word word := by
  obtain ⟨hsplit, hno⟩ := strchr_eq_some h
  have hne : word ≠ [] := by
    rintro rfl
    exact hblank (by rw [hsplit]; rfl)
  obtain ⟨b, rest, rfl⟩ := List.exists_cons_of_ne_nil hne
  refine ⟨hne, fun x hx hx32 => hno (hx32 ▸ hx), ?_⟩
  rw [hsplit] at hcolon
  exact hcolon

theorem head_dropWhile_blank (p : Bytes) : (p.dropWhile (· == 32)).head? ≠ some 32 := by
  intro h
  obtain ⟨rest, hrest⟩ := List.head?_eq_some_iff.mp h
  have hhead := List.head_dropWhile_not (· == (32 : UInt8)) (l := p)
    (by rw [hrest]; exact List.cons_ne_nil _ _)
  simp only [hrest, List.head_cons] at hhead
  simp at hhead

/-- Every parameter but the last is a word of the line. -/
theorem paramLoop_dropLast (more : Nat) : ∀ {xbuf : Bytes}, xbuf.head? ≠ some 32 →
    ∀ w ∈ (paramLoop more xbuf).dropLast, Word w ∧ ∀ b ∈ w, b ∈ xbuf := by
  induction more with
  | zero =>
    intro xbuf hblank w hw
    rw [paramLoop.eq_def] at hw
    split at hw
    · simp at hw
    rename_i hcolon
    split at hw
    · simp at hw
    rename_i word p hchr
    split at hw
    · simp at hw
    · obtain rfl : w = word := by simpa using hw
      refine ⟨word_of_strchr hcolon hblank hchr, fun b hb => ?_⟩
      rw [(strchr_eq_some hchr).1]
      exact List.mem_append_left _ hb
  | succ more ih =>
    intro xbuf hblank w hw
    rw [paramLoop.eq_def] at hw
    split at hw
    · simp at hw
    rename_i hcolon
    split at hw
    · simp at hw
    rename_i word p hchr
    split at hw
    · simp at hw
    · rw [List.dropLast_cons_of_ne_nil (paramLoop_ne_nil _ _)] at hw
      have hsplit := (strchr_eq_some hchr).1
      obtain rfl | hw := List.mem_cons.mp hw
      · refine ⟨word_of_strchr hcolon hblank hchr, fun b hb => ?_⟩
        rw [hsplit]
        exact List.mem_append_left _ hb
      · obtain ⟨hword, hmem⟩ := ih (head_dropWhile_blank p) w hw
        refine ⟨hword, fun b hb => ?_⟩
        rw [hsplit]
        refine List.mem_append_right _ (List.mem_cons_of_mem _ ?_)
        exact (List.dropWhile_sublist _).subset (hmem b hb)

theorem rbStringToArray_dropLast {string : Bytes} {maxpara : Nat} :
    ∀ w ∈ (rbStringToArray string maxpara).dropLast, Word w ∧ ∀ b ∈ w, b ∈ string := by
  intro w hw
  rw [rbStringToArray] at hw
  split at hw
  · simp at hw
  · obtain ⟨hword, hmem⟩ := paramLoop_dropLast _ (head_dropWhile_blank string) w hw
    exact ⟨hword, fun b hb => (List.dropWhile_sublist _).subset (hmem b hb)⟩

end Bluebox.Bandb
