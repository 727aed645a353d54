/-
  Bluebox.Lib.Once

  The keys of a list, each at its first occurrence: what a walk serves that leaves out
  the keys it has marked.
-/
import Mathlib.Data.List.Nodup

namespace Bluebox.Lib

variable {κ : Type _} [DecidableEq κ]

/-- The keys of a list that are not marked, each once. -/
def once : List κ → List κ → List κ
  | _, [] => []
  | marked, k :: l => if k ∈ marked then once marked l else k :: once (k :: marked) l

theorem mem_once {x : κ} {l : List κ} : ∀ {marked : List κ},
    x ∈ once marked l ↔ x ∈ l ∧ x ∉ marked := by
  induction l with
  | nil =>
    intro marked
    exact ⟨fun h => absurd h List.not_mem_nil, fun h => h.1⟩
  | cons k l ih =>
    intro marked
    rw [once]
    by_cases hk : k ∈ marked
    · rw [if_pos hk, ih, List.mem_cons]
      refine ⟨fun h => ⟨Or.inr h.1, h.2⟩, fun h => ⟨h.1.resolve_left ?_, h.2⟩⟩
      exact fun heq => h.2 (heq ▸ hk)
    · rw [if_neg hk, List.mem_cons, ih, List.mem_cons, List.mem_cons, not_or]
      constructor
      · rintro (rfl | h)
        · exact ⟨Or.inl rfl, hk⟩
        · exact ⟨Or.inr h.1, h.2.2⟩
      · rintro ⟨rfl | h, hx⟩
        · exact Or.inl rfl
        · by_cases heq : x = k
          · exact Or.inl heq
          · exact Or.inr ⟨h, heq, hx⟩

theorem nodup_once (l : List κ) : ∀ marked : List κ, (once marked l).Nodup := by
  induction l with
  | nil => exact fun _ => List.nodup_nil
  | cons k l ih =>
    intro marked
    rw [once]
    by_cases hk : k ∈ marked
    · rw [if_pos hk]
      exact ih marked
    · rw [if_neg hk, List.nodup_cons]
      exact ⟨fun hmem => (mem_once.mp hmem).2 List.mem_cons_self, ih (k :: marked)⟩

/-- The rule for a walk that serves the keys of the wanted elements.  The relation says
    what a state has to do with the keys served so far and with the elements to come. -/
theorem foldl_once {σ α : Type _} {step : σ → α → σ} {wanted : α → Bool} {key : α → κ}
    {R : σ → List κ → List α → Prop}
    (hserve : ∀ s marked a rest, R s marked (a :: rest) → wanted a = true → key a ∉ marked →
      R (step s a) (key a :: marked) rest)
    (hpass : ∀ s marked a rest, R s marked (a :: rest) → (wanted a = true → key a ∈ marked) →
      R (step s a) marked rest)
    (l : List α) : ∀ {s : σ} {marked : List κ}, R s marked l →
    R (l.foldl step s) ((once marked ((l.filter wanted).map key)).reverse ++ marked) [] := by
  induction l with
  | nil =>
    intro s marked h
    exact h
  | cons a l ih =>
    intro s marked h
    rw [List.foldl_cons, List.filter_cons]
    by_cases hwanted : wanted a = true
    · rw [if_pos hwanted, List.map_cons, once]
      by_cases hkey : key a ∈ marked
      · rw [if_pos hkey]
        exact ih (hpass s marked a l h fun _ => hkey)
      · rw [if_neg hkey, List.reverse_cons, List.append_assoc]
        exact ih (hserve s marked a l h hwanted hkey)
    · rw [if_neg hwanted]
      exact ih (hpass s marked a l h fun h => absurd h hwanted)

theorem mem_once_filter {α : Type _} {wanted : α → Bool} {key : α → κ} {l : List α} {x : κ} :
    x ∈ once [] ((l.filter wanted).map key) ↔ ∃ a ∈ l, wanted a = true ∧ key a = x := by
  rw [mem_once, List.mem_map]
  constructor
  · rintro ⟨⟨a, ha, rfl⟩, -⟩
    rw [List.mem_filter] at ha
    exact ⟨a, ha.1, ha.2, rfl⟩
  · rintro ⟨a, ha, hwanted, rfl⟩
    exact ⟨⟨a, List.mem_filter.mpr ⟨ha, hwanted⟩, rfl⟩, List.not_mem_nil⟩

theorem filter_eq_of_nodup {l : List κ} (h : l.Nodup) (x : κ) :
    (l.filter fun y => y == x) = if x ∈ l then [x] else [] := by
  rw [List.filter_beq, List.Nodup.count h]
  by_cases hx : x ∈ l
  · rw [if_pos hx, if_pos hx]
    rfl
  · rw [if_neg hx, if_neg hx]
    rfl

end Bluebox.Lib
