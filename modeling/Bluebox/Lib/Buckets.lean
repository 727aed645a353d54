/-
  Bluebox.Lib.Buckets

  Chained hash tables.  The records of a list are spread over chains by a key; a record
  goes to the front of its chain, and the first that satisfies a predicate is unlinked
  from a chain.  A lookup that probes some of the chains finds what a scan of the list
  finds, as far as the keys of what it looks for are among the probed ones.
-/
import Mathlib.Data.List.Basic
import Mathlib.Logic.Function.Basic

namespace Bluebox.Lib

variable {ρ κ : Type _} [DecidableEq κ] {key : ρ → κ} {l : List ρ} {r : ρ}

/-- The chains of a list of records. -/
def buckets (key : ρ → κ) (l : List ρ) (k : κ) : List ρ := l.filter fun r => decide (key r = k)

theorem mem_buckets {k : κ} : r ∈ buckets key l k ↔ r ∈ l ∧ key r = k := by
  rw [buckets, List.mem_filter, decide_eq_true_eq]

/-- A new record is the first of its chain. -/
theorem buckets_cons (r : ρ) (l : List ρ) :
    buckets key (r :: l) = Function.update (buckets key l) (key r) (r :: buckets key l (key r)) := by
  funext k
  by_cases hk : k = key r
  · subst hk
    rw [Function.update_self, buckets, List.filter_cons_of_pos (by simp)]
    rfl
  · rw [Function.update_of_ne hk, buckets, List.filter_cons_of_neg]
    · rfl
    · rw [decide_eq_true_eq]
      exact fun h => hk h.symm

/-- Unlinking from a chain takes the first such record of that chain from the list. -/
theorem buckets_eraseP (k : κ) (p : ρ → Bool) (l : List ρ) :
    buckets key (l.eraseP fun r => decide (key r = k) && p r) =
      Function.update (buckets key l) k ((buckets key l k).eraseP p) := by
  induction l with
  | nil => simp [buckets]
  | cons a l ih =>
    by_cases hk : key a = k
    · subst hk
      by_cases hp : p a = true
      · rw [List.eraseP_cons_of_pos (by simp [hp]), buckets_cons, Function.update_self,
          List.eraseP_cons_of_pos hp, Function.update_idem, Function.update_eq_self]
      · rw [List.eraseP_cons_of_neg (by simp [hp]), buckets_cons, buckets_cons, ih,
          Function.update_self, Function.update_self, Function.update_idem, Function.update_idem,
          List.eraseP_cons_of_neg hp]
    · rw [List.eraseP_cons_of_neg (by simp [hk]), buckets_cons, buckets_cons, ih,
        Function.update_of_ne hk, Function.update_of_ne (Ne.symm hk),
        Function.update_comm (Ne.symm hk)]

/-- A test that is made of every record. -/
theorem buckets_filter (p : ρ → Bool) (l : List ρ) :
    buckets key (l.filter p) = fun k => (buckets key l k).filter p := by
  funext k
  rw [buckets, buckets, List.filter_filter, List.filter_filter]
  exact List.filter_congr fun r _ => Bool.and_comm _ _

variable {ks : List κ} {p : ρ → Bool}

/-- What a lookup finds is in the list. -/
theorem mem_of_probe (h : (ks.findSome? fun k => (buckets key l k).find? p) = some r) :
    r ∈ l ∧ p r = true := by
  obtain ⟨k, -, hfind⟩ := List.exists_of_findSome?_eq_some h
  exact ⟨(mem_buckets.mp (List.mem_of_find?_eq_some hfind)).1, List.find?_some hfind⟩

/-- A lookup finds a record that is in a probed chain. -/
theorem probe_isSome (hr : r ∈ l) (hkey : key r ∈ ks) (hp : p r = true) :
    (ks.findSome? fun k => (buckets key l k).find? p).isSome := by
  rw [List.findSome?_isSome_iff]
  refine ⟨key r, hkey, ?_⟩
  rw [List.find?_isSome]
  exact ⟨r, mem_buckets.mpr ⟨hr, rfl⟩, hp⟩

end Bluebox.Lib
