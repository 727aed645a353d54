/-
  Bluebox.Channel.MaskWord

  The entries of the three lists are words that a line can hold as a parameter: neither
  `chm_ban` nor `ms_bmask` lets anything else through to `add_id`.
-/
import Bluebox.Channel.BanList
import Bluebox.Channel.ModeLine

namespace Bluebox.Chan

open Bluebox.Lib
open Bluebox.Bandb (Word)
open Bluebox.ModeLine (prettyText prettyMask_eq)

-- ============================================================================
-- Local masks
-- ============================================================================

section Pretty

theorem orSplat_noBlank {s : Bytes} (h : (32 : UInt8) ∉ s) : (32 : UInt8) ∉ orSplat s := by
  unfold orSplat
  split
  · decide
  · exact h

theorem orSplat_head (s : Bytes) : orSplat s ≠ [] ∧ ((orSplat s).head? = some star ∨ (orSplat s).head? = s.head?) := by
  unfold orSplat
  split
  · exact ⟨List.cons_ne_nil _ _, Or.inl rfl⟩
  · exact ⟨‹_›, Or.inr rfl⟩

theorem maskParts_noBlank {mask : Bytes} (h : (32 : UInt8) ∉ mask) :
    (32 : UInt8) ∉ (maskParts mask).1 ∧ (32 : UInt8) ∉ (maskParts mask).2.1 ∧ (32 : UInt8) ∉ (maskParts mask).2.2 := by
  have hstar : (32 : UInt8) ∉ [star] := by decide
  unfold maskParts
  split
  · rename_i left host hat
    obtain ⟨hleft, hhost⟩ : (32 : UInt8) ∉ left ∧ (32 : UInt8) ∉ host := by
      rw [(strchr_eq_some hat).1] at h
      simpa [not_or] using h
    split
    · rename_i nick user hex
      obtain ⟨hnick, huser⟩ : (32 : UInt8) ∉ nick ∧ (32 : UInt8) ∉ user := by
        rw [(strchr_eq_some hex).1] at hleft
        simpa [not_or] using hleft
      exact ⟨orSplat_noBlank hnick, orSplat_noBlank huser, orSplat_noBlank hhost⟩
    · exact ⟨hstar, orSplat_noBlank hleft, orSplat_noBlank hhost⟩
  · split
    · rename_i nick user hex
      obtain ⟨hnick, huser⟩ : (32 : UInt8) ∉ nick ∧ (32 : UInt8) ∉ user := by
        rw [(strchr_eq_some hex).1] at h
        simpa [not_or] using h
      exact ⟨orSplat_noBlank hnick, orSplat_noBlank huser, hstar⟩
    · split
      · exact ⟨hstar, hstar, orSplat_noBlank h⟩
      · exact ⟨orSplat_noBlank h, hstar, hstar⟩

theorem orSplat_head_of_prefix {s l : Bytes} {c : UInt8} {r : Bytes} (h : s = l ++ c :: r) :
    (orSplat l).head? = some star ∨ (orSplat l).head? = s.head? := by
  by_cases hnil : l = []
  · rw [hnil]
    exact Or.inl rfl
  · rw [h, List.head?_append_of_ne_nil _ hnil]
    exact (orSplat_head l).2

/-- The nick of a mask begins as the mask does, or with a star. -/
theorem maskParts_nick (mask : Bytes) : (maskParts mask).1 ≠ [] ∧
    ((maskParts mask).1.head? = some star ∨ (maskParts mask).1.head? = mask.head?) := by
  have hstar : ([star] : Bytes) ≠ [] ∧ (([star] : Bytes).head? = some star ∨ ([star] : Bytes).head? = mask.head?) :=
    ⟨List.cons_ne_nil _ _, Or.inl rfl⟩
  unfold maskParts
  split
  · rename_i left host hat
    split
    · rename_i nick user hex
      refine ⟨(orSplat_head nick).1, orSplat_head_of_prefix (c := 33) (r := user ++ 64 :: host) ?_⟩
      rw [(strchr_eq_some hat).1, (strchr_eq_some hex).1, List.append_assoc]
      rfl
    · exact hstar
  · split
    · rename_i nick user hex
      exact ⟨(orSplat_head nick).1, orSplat_head_of_prefix (strchr_eq_some hex).1⟩
    · split
      · exact hstar
      · exact orSplat_head mask

/-- What `chm_ban` makes of the mask of a local user. -/
theorem prettyText_word {raw : Bytes} (hne : raw ≠ []) (hcolon : raw.head? ≠ some 58) : Word (prettyText raw) := by
  obtain ⟨hsub, hhead⟩ := collapse_sublist (checkString raw)
  have hcheck : checkString raw = raw.takeWhile fun b => !isSpace b := if_neg hne
  have hblank : (32 : UInt8) ∉ collapse (checkString raw) := by
    intro hmem
    have hkept := hsub.subset hmem
    rw [hcheck] at hkept
    exact absurd (List.mem_takeWhile_imp hkept) (by decide)
  have hstart : (collapse (checkString raw)).head? ≠ some 58 := by
    rw [hhead, hcheck]
    obtain ⟨b, rest, rfl⟩ := List.exists_cons_of_ne_nil hne
    rw [List.takeWhile_cons]
    split
    · exact hcolon
    · exact nofun
  unfold prettyText
  obtain ⟨hnick, huser, hhost⟩ := maskParts_noBlank hblank
  obtain ⟨hnil, hfirst⟩ := maskParts_nick (collapse (checkString raw))
  generalize maskParts (collapse (checkString raw)) = parts at hnick huser hhost hnil hfirst
  obtain ⟨nick, user, host⟩ := parts
  obtain ⟨b, rest, rfl⟩ := List.exists_cons_of_ne_nil hnil
  refine ⟨List.cons_ne_nil _ _, fun x hx heq => ?_, fun h => ?_⟩
  · subst heq
    simp only [userHost, List.mem_append, List.mem_cons] at hx
    rcases hx with (hx | hx | hx) | hx | hx
    · exact hnick (List.mem_of_mem_take hx)
    · exact absurd hx (by decide)
    · exact huser (List.mem_of_mem_take hx)
    · exact absurd hx (by decide)
    · exact hhost (List.mem_of_mem_take hx)
  · have hb : some b = some 58 := h
    rcases hfirst with hfirst | hfirst
    · exact absurd (hb.symm.trans hfirst) (by decide)
    · exact hstart (hfirst.symm.trans hb)

end Pretty

-- ============================================================================
-- Whole runs
-- ============================================================================

/-- A mask that a line can hold. -/
def WordMask (_ : Client) (mask : Bytes) : Prop := Word mask

section Runs

variable {cfg : Config} {srv : Server}

theorem banRequest_word {call : Call} {k : BanType} {w w' : Walk} {mask raw : Bytes}
    (h : banRequest call k w = some (w', some (mask, raw))) : Word mask := by
  unfold banRequest at h
  generalize w.count call maxModeParams = cnt at h
  obtain ⟨v, full⟩ := cnt
  dsimp only at h
  split at h
  · cases (Prod.mk.inj (Option.some.inj h)).2
  split at h
  · split at h
    · cases (Prod.mk.inj (Option.some.inj h)).2
    · split at h <;> cases (Prod.mk.inj (Option.some.inj h)).2
  split at h
  · cases (Prod.mk.inj (Option.some.inj h)).2
  split at h
  · cases (Prod.mk.inj (Option.some.inj h)).2
  split at h
  · cases (Prod.mk.inj (Option.some.inj h)).2
  rename_i hraw
  rw [not_or] at hraw
  split at h
  · -- a remote mask is taken as it is
    split at h
    · cases (Prod.mk.inj (Option.some.inj h)).2
    · rename_i hblank
      obtain ⟨rfl, -⟩ := Prod.mk.inj (Option.some.inj (Prod.mk.inj (Option.some.inj h)).2)
      rw [Bool.or_eq_true, not_or, List.contains_iff_mem] at hblank
      exact ⟨hraw.1, fun b hb heq => hblank.1 (heq ▸ hb), hraw.2⟩
  · split at h
    · cases h
    · rename_i mask' pos hpretty
      split at h
      · cases (Prod.mk.inj (Option.some.inj h)).2
      · obtain ⟨rfl, -⟩ := Prod.mk.inj (Option.some.inj (Prod.mk.inj (Option.some.inj h)).2)
        rw [prettyMask_eq] at hpretty
        split at hpretty
        · cases hpretty
        · obtain ⟨rfl, -⟩ := Prod.mk.inj (Option.some.inj hpretty)
          exact prettyText_word hraw.1 hraw.2

theorem lettersOk_word {call : Call} (cs : Bytes) : ∀ w, LettersOk WordMask call cs w := by
  induction cs with
  | nil => exact fun _ => trivial
  | cons c cs ih => exact fun w => ⟨fun _ _ _ _ _ hreq _ => banRequest_word hreq, fun w' _ => ih w'⟩

/-- The pieces between blanks have none. -/
theorem noBlank_of_splitOn (s : Bytes) : ∀ l ∈ s.splitOn (32 : UInt8), (32 : UInt8) ∉ l := by
  induction s with
  | nil =>
    intro l hl
    rw [List.splitOn_nil, List.mem_singleton] at hl
    rw [hl]
    exact List.not_mem_nil
  | cons a s ih =>
    intro l hl
    rw [List.splitOn_cons_eq_if_modifyHead] at hl
    split at hl
    · rcases List.mem_cons.mp hl with rfl | hl
      · exact List.not_mem_nil
      · exact ih l hl
    · rename_i hne
      cases hsplit : s.splitOn (32 : UInt8) with
      | nil => exact absurd hsplit (List.splitOn_ne_nil 32 s)
      | cons h t =>
        rw [hsplit] at hl ih
        rcases List.mem_cons.mp hl with rfl | hl
        · rw [List.mem_cons, not_or]
          exact ⟨fun heq => hne (by simp [heq]), ih h List.mem_cons_self⟩
        · exact ih l (List.mem_cons_of_mem _ hl)

theorem bmaskMasks_word (s : Bytes) : ∀ mask ∈ bmaskMasks s, Word mask := by
  intro mask hmask
  obtain ⟨hmask, hcolon⟩ := List.mem_filter.mp hmask
  obtain ⟨hmask, hne⟩ := List.mem_filter.mp (List.takeWhile_subset _ hmask)
  have hblank := noBlank_of_splitOn s mask hmask
  exact ⟨of_decide_eq_true hne, fun b hb heq => hblank (heq ▸ hb), of_decide_eq_true hcolon⟩

theorem masksOk_word (cfg : Config) (srv : Server) (a : Action) : a.MasksOk cfg WordMask srv := by
  cases a with
  | mode => exact fun _ _ _ _ _ => lettersOk_word _ _
  | serverMode => exact fun _ _ _ _ _ => lettersOk_word _ _
  | tmode => exact fun _ _ _ _ _ => lettersOk_word _ _
  | bmask c ts dest letter masks now => exact fun _ _ _ mask hmask => bmaskMasks_word masks mask hmask
  | _ => exact trivial

theorem Server.reachable_word (h : Reach (Server.step cfg) anyStep Server.start srv) :
    srv.Reachable cfg WordMask := by
  induction h with
  | init => exact .init
  | next _ _ hs ih => exact .next ih (masksOk_word cfg _ _) hs

theorem Word.take {w : Bytes} (h : Word w) {n : Nat} (hn : 0 < n) : Word (w.take n) := by
  obtain ⟨b, rest, rfl⟩ := List.exists_cons_of_ne_nil h.ne_nil
  obtain ⟨n, rfl⟩ := Nat.exists_eq_succ_of_ne_zero hn.ne'
  exact ⟨List.cons_ne_nil _ _, fun x hx => h.no_blank x (List.mem_of_mem_take hx), h.no_colon⟩

/-- In every run the entries of the lists are words. -/
theorem ban_word_of_run (h : Reach (Server.step cfg) anyStep Server.start srv) :
    ∀ p k, ∀ b ∈ (srv.table.chan p).list k, Word b.banstr := by
  refine (Server.reachable_word h).forall_chan (P := fun ch => ∀ k, ∀ b ∈ ch.list k, Word b.banstr) ?_ ?_
  · intro s now hs k b hb
    cases k <;> exact absurd hb List.not_mem_nil
  · intro client ch ch' hu hch k b hb
    rcases hu.list_cases k with heq | heq | ⟨p, heq⟩ | ⟨source, mask, now, hword, -, -, -, heq⟩
    · exact hch k b (heq ▸ hb)
    · rw [heq] at hb
      cases hb
    · rw [heq] at hb
      exact hch k b (List.mem_of_mem_eraseP hb)
    · rw [heq] at hb
      rcases List.mem_cons.mp hb with rfl | hb
      · exact Word.take hword (by decide)
      · exact hch k b hb

end Runs

end Bluebox.Chan
