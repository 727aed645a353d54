/-
  Bluebox.Lib.Fifo

  Queues that grow at the tail and shrink at the head, and statements about an
  element of such a queue together with everything in front of it.  Sending
  adds one obligation, receiving drops one.
-/
import Mathlib.Data.List.Infix

namespace Bluebox.Lib

variable {α : Type _} {P Q : List α → α → Prop} {l : List α} {a : α}

/-- `P` holds of every element of the queue and what stands before it. -/
def AtEach (P : List α → α → Prop) (l : List α) : Prop := ∀ pre a, pre ++ [a] <+: l → P pre a

theorem atEach_nil : AtEach P [] := by
  intro pre a h
  exact absurd (List.prefix_nil.mp h) (by simp)

theorem AtEach.mono (h : AtEach P l) (hPQ : ∀ pre a, a ∈ l → pre ⊆ l → P pre a → Q pre a) :
    AtEach Q l := by
  intro pre a hpre
  have hsub := hpre.subset
  refine hPQ pre a (hsub (by simp)) (fun b hb => hsub (by simp [hb])) (h pre a hpre)

/-- Sending. -/
theorem AtEach.snoc (h : AtEach P l) (ha : P l a) : AtEach P (l ++ [a]) := by
  intro pre b hpre
  rcases List.prefix_concat_iff.mp hpre with heq | hpre
  · obtain ⟨rfl, hb⟩ := List.append_inj' heq rfl
    obtain rfl : b = a := by simpa using hb
    exact ha
  · exact h pre b hpre

/-- Receiving: the element is still in front of the others. -/
theorem AtEach.tail (h : AtEach P (a :: l)) : AtEach (fun pre b => P (a :: pre) b) l := by
  intro pre b hpre
  exact h (a :: pre) b (List.cons_prefix_cons.mpr ⟨rfl, hpre⟩)

theorem AtEach.head (h : AtEach P (a :: l)) : P [] a :=
  h [] a ⟨l, rfl⟩

theorem AtEach.of_mem (h : AtEach P l) (ha : a ∈ l) : ∃ pre, pre ⊆ l ∧ P pre a := by
  obtain ⟨pre, post, rfl⟩ := List.append_of_mem ha
  exact ⟨pre, fun b hb => by simp [hb], h pre a ⟨post, by simp⟩⟩

/-- In a queue with a known head, every other element has the head before it. -/
theorem AtEach.of_mem_tail (h : AtEach P (a :: l)) {b : α} (hb : b ∈ l) :
    ∃ pre, a ∈ pre ∧ P pre b := by
  obtain ⟨pre, -, hP⟩ := h.tail.of_mem hb
  exact ⟨a :: pre, List.mem_cons_self, hP⟩

end Bluebox.Lib
