/-
  Bluebox.Lib.Threads

  Doubly linked lists that are threaded through nodes: each node has a pointer to both
  sides, and the head of a list is kept elsewhere.

  `Seg` reads a list off the pointers.  Putting a node in front and taking a node out change
  the pointers of the nodes of that list only, so the lists of one set of pointers can be
  treated one by one.
-/
import Mathlib.Data.List.Nodup
import Mathlib.Logic.Function.Basic

namespace Bluebox.Lib

variable {ι : Type _} [DecidableEq ι]

/-- The pointers of the nodes. -/
structure Threads (ι : Type _) where
  next : ι → Option ι
  prev : ι → Option ι

/-- Put a node in front of a list. -/
def Threads.push (t : Threads ι) (head : Option ι) (a : ι) : Threads ι :=
  let t : Threads ι := ⟨Function.update t.next a head, Function.update t.prev a none⟩
  match head with
  | none => t
  | some b => ⟨t.next, Function.update t.prev b (some a)⟩

/-- The node in front of `a` points to the one behind it, or the head does. -/
def Threads.skip (t : Threads ι) (head : Option ι) (a : ι) : Threads ι × Option ι :=
  match t.prev a with
  | some p => (⟨Function.update t.next p (t.next a), t.prev⟩, head)
  | none => (t, t.next a)

/-- Take a node out of a list. -/
def Threads.unlink (t : Threads ι) (head : Option ι) (a : ι) : Threads ι × Option ι :=
  let s := t.skip head a
  match s.1.next a with
  | some n => (⟨s.1.next, Function.update s.1.prev n (s.1.prev a)⟩, s.2)
  | none => s

/-- The nodes from `head` on are those of the list; `before` is in front of the first. -/
def Seg (t : Threads ι) : Option ι → Option ι → List ι → Prop
  | _, head, [] => head = none
  | before, head, a :: l => head = some a ∧ t.prev a = before ∧ Seg t (some a) (t.next a) l

section Reading

omit [DecidableEq ι]

variable {t t' : Threads ι}

theorem Seg.congr {l : List ι} : ∀ {before head : Option ι},
    (∀ x ∈ l, t'.next x = t.next x ∧ t'.prev x = t.prev x) → Seg t before head l →
    Seg t' before head l := by
  induction l with
  | nil => exact fun _ h => h
  | cons a l ih =>
    intro before head hsame ⟨hhead, hprev, hrest⟩
    obtain ⟨hnext', hprev'⟩ := hsame a List.mem_cons_self
    refine ⟨hhead, hprev'.trans hprev, ?_⟩
    rw [hnext']
    exact ih (fun x hx => hsame x (List.mem_cons_of_mem a hx)) hrest

theorem Seg.head_eq {before head : Option ι} {l : List ι} (h : Seg t before head l) :
    head = l.head? := by
  cases l with
  | nil => exact h
  | cons a l => exact h.1

/-- What a node points to is in the list. -/
theorem Seg.next_mem {l : List ι} : ∀ {before head : Option ι}, Seg t before head l →
    ∀ {a b : ι}, a ∈ l → t.next a = some b → b ∈ l := by
  induction l with
  | nil => exact fun _ _ _ ha => absurd ha List.not_mem_nil
  | cons c l ih =>
    intro before head ⟨_, _, hrest⟩ a b ha hb
    rcases List.mem_cons.mp ha with rfl | ha
    · rw [hrest.head_eq] at hb
      exact List.mem_cons_of_mem a (List.mem_of_mem_head? hb)
    · exact List.mem_cons_of_mem c (ih hrest ha hb)

/-- A node points back into the list, if it is not the first. -/
theorem Seg.prev_mem {l : List ι} : ∀ {before head : Option ι}, Seg t before head l →
    ∀ {a : ι}, a ∈ l → (head = some a ∧ t.prev a = before) ∨ ∃ b ∈ l, t.prev a = some b := by
  induction l with
  | nil => exact fun _ _ ha => absurd ha List.not_mem_nil
  | cons c l ih =>
    intro before head ⟨hhead, hprev, hrest⟩ a ha
    rcases List.mem_cons.mp ha with rfl | ha
    · exact Or.inl ⟨hhead, hprev⟩
    · rcases ih hrest ha with ⟨-, h⟩ | ⟨b, hb, h⟩
      · exact Or.inr ⟨c, List.mem_cons_self, h⟩
      · exact Or.inr ⟨b, List.mem_cons_of_mem c hb, h⟩

end Reading

section Push

variable {t : Threads ι} {head : Option ι} {a : ι}

theorem Threads.push_frame {x : ι} (hx : x ≠ a) (hhead : head ≠ some x) :
    (t.push head a).next x = t.next x ∧ (t.push head a).prev x = t.prev x := by
  unfold Threads.push
  cases head with
  | none => exact ⟨Function.update_of_ne hx .., Function.update_of_ne hx ..⟩
  | some b =>
    have hb : x ≠ b := fun h => hhead (congrArg some h.symm)
    exact ⟨Function.update_of_ne hx .., (Function.update_of_ne hb ..).trans (Function.update_of_ne hx ..)⟩

/-- The new node comes first. -/
theorem Seg.push {l : List ι} (h : Seg t none head l) (ha : a ∉ l) (hnodup : l.Nodup) :
    Seg (t.push head a) none (some a) (a :: l) := by
  cases l with
  | nil =>
    obtain rfl : head = none := h
    exact ⟨rfl, Function.update_self .., Function.update_self ..⟩
  | cons b l =>
    obtain ⟨rfl, -, hrest⟩ := h
    have hab : a ≠ b := fun h => ha (h ▸ List.mem_cons_self)
    rw [List.nodup_cons] at hnodup
    refine ⟨rfl, ?_, ?_, ?_, ?_⟩
    · exact (Function.update_of_ne hab ..).trans (Function.update_self ..)
    · exact Function.update_self ..
    · exact Function.update_self ..
    · have hnext : (t.push (some b) a).next b = t.next b := Function.update_of_ne hab.symm ..
      rw [hnext]
      refine hrest.congr fun x hx => Threads.push_frame ?_ ?_
      · exact fun h => ha (h ▸ List.mem_cons_of_mem b hx)
      · exact fun h => hnodup.1 (Option.some.inj h ▸ hx)

end Push

section Unlink

variable {t : Threads ι} {head : Option ι} {a : ι}

/-- What taking a node out does to the pointers and to the head. -/
theorem Threads.unlink_eq (hprev : t.prev a ≠ some a) :
    t.unlink head a =
      (⟨fun x => if t.prev a = some x then t.next a else t.next x,
        fun x => if t.next a = some x then t.prev a else t.prev x⟩,
        if t.prev a = none then t.next a else head) := by
  unfold Threads.unlink Threads.skip
  cases hp : t.prev a with
  | none =>
    simp only [reduceCtorEq, if_false, if_true]
    cases hn : t.next a with
    | none => simp
    | some n =>
      simp only [Option.some.injEq, Prod.mk.injEq, Threads.mk.injEq, true_and, and_true]
      funext x
      rw [Function.update_apply, hp]
      exact if_congr eq_comm rfl rfl
  | some p =>
    have hpa : a ≠ p := fun h => hprev (hp.trans (congrArg some h.symm))
    simp only [Function.update_of_ne hpa, reduceCtorEq, if_false]
    have hnext : Function.update t.next p (t.next a) =
        fun x => if some p = some x then t.next a else t.next x := by
      funext x
      rw [Function.update_apply]
      exact if_congr ⟨fun h => congrArg some h.symm, fun h => (Option.some.inj h).symm⟩ rfl rfl
    cases hn : t.next a with
    | none =>
      rw [← hn, hnext, hn]
      simp
    | some n =>
      rw [← hn, hnext, hn]
      simp only [Option.some.injEq, Prod.mk.injEq, Threads.mk.injEq, true_and, and_true]
      funext x
      rw [Function.update_apply, hp]
      exact if_congr eq_comm rfl rfl

/-- The rest of the list, read off the new pointers. -/
theorem Seg.without {l : List ι} : ∀ {before head : Option ι}, Seg t before head l → l.Nodup →
    (∀ b, before = some b → b ∉ l) → a ∈ l →
    Seg ⟨fun x => if t.prev a = some x then t.next a else t.next x,
        fun x => if t.next a = some x then t.prev a else t.prev x⟩
      before (if head = some a then t.next a else head) (l.erase a) := by
  induction l with
  | nil => exact fun _ _ _ ha => absurd ha List.not_mem_nil
  | cons b l ih =>
    intro before head ⟨hhead, hprev, hrest⟩ hnodup hbefore ha
    rw [List.nodup_cons] at hnodup
    by_cases hab : b = a
    · subst hab
      rw [if_pos hhead, List.erase_cons_head]
      cases l with
      | nil => exact hrest
      | cons c l =>
        obtain ⟨hnext, -, htail⟩ := hrest
        have hc : ∀ x ∈ c :: l, t.prev b ≠ some x := fun x hx h =>
          hbefore x (hprev.symm.trans h) (List.mem_cons_of_mem b hx)
        refine ⟨hnext, ?_, ?_⟩
        · exact (if_pos hnext).trans hprev
        · simp only [if_neg (hc c List.mem_cons_self)]
          refine htail.congr fun x hx => ⟨if_neg (hc x (List.mem_cons_of_mem c hx)), if_neg ?_⟩
          intro h
          obtain rfl := Option.some.inj (hnext.symm.trans h)
          exact (List.nodup_cons.mp hnodup.2).1 hx
    · have hal : a ∈ l := (List.mem_cons.mp ha).resolve_left fun h => hab h.symm
      have hne : ¬ head = some a := fun h => hab (Option.some.inj (hhead.symm.trans h))
      rw [if_neg hne, List.erase_cons_tail (by simpa using hab)]
      refine ⟨hhead, ?_, ?_⟩
      · refine (if_neg fun h => ?_).trans hprev
        exact hnodup.1 (hrest.next_mem hal h)
      · have hiff : t.prev a = some b ↔ t.next b = some a := by
          rcases hrest.prev_mem hal with ⟨hn, hp⟩ | ⟨d, hd, hp⟩
          · exact ⟨fun _ => hn, fun _ => hp⟩
          · refine ⟨fun h => absurd (Option.some.inj (h.symm.trans hp) ▸ hd) hnodup.1, fun h => ?_⟩
            -- The first of the rest points back to `b`, which is not in the rest.
            cases l with
            | nil => exact absurd hal List.not_mem_nil
            | cons c l =>
              obtain ⟨hnext, hback, -⟩ := hrest
              obtain rfl := Option.some.inj (h.symm.trans hnext)
              exact hback
        have hrec := ih hrest hnodup.2 (fun c hc => Option.some.inj hc ▸ hnodup.1) hal
        simp only [hiff]
        exact hrec

omit [DecidableEq ι] in
theorem Seg.prev_ne_self {l : List ι} : ∀ {before head : Option ι}, Seg t before head l → l.Nodup →
    (∀ b, before = some b → b ∉ l) → a ∈ l → t.prev a ≠ some a := by
  induction l with
  | nil => exact fun _ _ _ ha => absurd ha List.not_mem_nil
  | cons c l ih =>
    intro before head ⟨_, hprev, hrest⟩ hnodup hbefore ha h
    rw [List.nodup_cons] at hnodup
    rcases List.mem_cons.mp ha with rfl | ha
    · exact hbefore a (hprev.symm.trans h) List.mem_cons_self
    · exact ih hrest hnodup.2 (fun b hb => Option.some.inj hb ▸ hnodup.1) ha h

/-- A node is taken out of its list. -/
theorem Seg.unlink {l : List ι} (h : Seg t none head l) (hnodup : l.Nodup) (ha : a ∈ l) :
    Seg (t.unlink head a).1 none (t.unlink head a).2 (l.erase a) := by
  rw [Threads.unlink_eq (h.prev_ne_self hnodup nofun ha)]
  have hhead : (if t.prev a = none then t.next a else head) =
      if head = some a then t.next a else head := by
    rcases h.prev_mem ha with ⟨hhead, hprev⟩ | ⟨b, hb, hprev⟩
    · rw [if_pos hprev, if_pos hhead]
    · refine (if_neg (by rw [hprev]; nofun)).trans (if_neg fun hhead => ?_).symm
      cases l with
      | nil => exact List.not_mem_nil ha
      | cons c l =>
        obtain rfl := Option.some.inj (h.1.symm.trans hhead)
        exact absurd (h.2.1.symm.trans hprev) nofun
  simp only [hhead]
  exact h.without hnodup nofun ha

/-- Other nodes keep their pointers. -/
theorem Seg.unlink_frame {l : List ι} (h : Seg t none head l) (hnodup : l.Nodup) (ha : a ∈ l) {x : ι}
    (hx : x ∉ l) :
    (t.unlink head a).1.next x = t.next x ∧ (t.unlink head a).1.prev x = t.prev x := by
  rw [Threads.unlink_eq (h.prev_ne_self hnodup nofun ha)]
  refine ⟨if_neg fun hp => ?_, if_neg fun hn => hx (h.next_mem ha hn)⟩
  rcases h.prev_mem ha with ⟨-, hprev⟩ | ⟨b, hb, hprev⟩
  · exact absurd (hprev.symm.trans hp) nofun
  · exact hx (Option.some.inj (hprev.symm.trans hp) ▸ hb)

end Unlink

-- ============================================================================
-- Lists by key
-- ============================================================================

variable {κ : Type _} [DecidableEq κ]

/-- The list of each key has the nodes with that key, in the order of `used`. -/
def Keyed (t : Threads ι) (head : κ → Option ι) (key : ι → Option κ) (used : List ι) : Prop :=
  ∀ k, Seg t none (head k) (used.filter fun i => key i == some k)

section Keyed

variable {t : Threads ι} {head : κ → Option ι} {key : ι → Option κ} {used : List ι} {a : ι} {k : κ}

omit [DecidableEq ι] in
theorem Keyed.congr {key' : ι → Option κ} (h : Keyed t head key used)
    (hsame : ∀ x ∈ used, key' x = key x) : Keyed t head key' used := by
  intro k
  have hfilter : (used.filter fun i => key' i == some k) = used.filter fun i => key i == some k :=
    List.filter_congr fun x hx => by rw [hsame x hx]
  rw [hfilter]
  exact h k

/-- A node without a key is on no list. -/
theorem Keyed.erase_of_none (h : Keyed t head key used) (ha : key a = none) (hnodup : used.Nodup) :
    Keyed t head key (used.erase a) := by
  intro k
  have hfilter : ((used.filter (· != a)).filter fun i => key i == some k) =
      used.filter fun i => key i == some k := by
    rw [List.filter_filter]
    refine List.filter_congr fun x _ => ?_
    by_cases hx : x = a
    · rw [hx, ha]
      rfl
    · rw [bne_iff_ne.mpr hx, Bool.and_true]
  rw [hnodup.erase_eq_filter, hfilter]
  exact h k

omit [DecidableEq ι] in
theorem Keyed.cons_of_none (h : Keyed t head key used) (ha : key a = none) :
    Keyed t head key (a :: used) := by
  intro k
  have hfilter : ((a :: used).filter fun i => key i == some k) = used.filter fun i => key i == some k :=
    List.filter_cons_of_neg (by rw [ha]; nofun)
  rw [hfilter]
  exact h k

/-- Taking a node out of the list of its key. -/
theorem Keyed.unlink (h : Keyed t head key used) (hnodup : used.Nodup) (ha : a ∈ used)
    (hk : key a = some k) {l : κ → List ι} (hl : ∀ j, l j = (used.filter fun i => key i == some j).erase a) :
    ∀ j, Seg (t.unlink (head k) a).1 none (Function.update head k (t.unlink (head k) a).2 j) (l j) := by
  intro j
  have hmem : a ∈ used.filter fun i => key i == some k :=
    List.mem_filter.mpr ⟨ha, beq_iff_eq.mpr hk⟩
  rw [hl]
  by_cases hj : j = k
  · subst hj
    rw [Function.update_self]
    exact (h j).unlink (hnodup.filter _) hmem
  · rw [Function.update_of_ne hj]
    have hnot : ∀ x ∈ used.filter fun i => key i == some j, x ∉ used.filter fun i => key i == some k := by
      intro x hx hx'
      have hxj := beq_iff_eq.mp (List.mem_filter.mp hx).2
      have hxk := beq_iff_eq.mp (List.mem_filter.mp hx').2
      exact hj (Option.some.inj (hxj.symm.trans hxk))
    have hna : a ∉ used.filter fun i => key i == some j := fun ha' => hnot a ha' hmem
    rw [List.erase_of_not_mem hna]
    exact (h j).congr fun x hx => (h k).unlink_frame (hnodup.filter _) hmem (hnot x hx)

theorem Keyed.erase (h : Keyed t head key used) (hnodup : used.Nodup) (ha : a ∈ used)
    (hk : key a = some k) :
    Keyed (t.unlink (head k) a).1 (Function.update head k (t.unlink (head k) a).2) key (used.erase a) := by
  refine h.unlink hnodup ha hk fun j => ?_
  rw [List.erase_filter]

/-- A node that loses its key. -/
theorem Keyed.unkey (h : Keyed t head key used) (hnodup : used.Nodup) (ha : a ∈ used)
    (hk : key a = some k) :
    Keyed (t.unlink (head k) a).1 (Function.update head k (t.unlink (head k) a).2)
      (Function.update key a none) used := by
  refine h.unlink hnodup ha hk fun j => ?_
  rw [(hnodup.filter _).erase_eq_filter, List.filter_filter]
  refine List.filter_congr fun x _ => ?_
  by_cases hx : x = a
  · subst hx
    rw [Function.update_self, bne_self_eq_false]
    rfl
  · rw [Function.update_of_ne hx, bne_iff_ne.mpr hx, Bool.true_and]

/-- A new node goes in front of the list of its key. -/
theorem Keyed.push (h : Keyed t head key used) (hnodup : used.Nodup) (ha : a ∉ used)
    (hk : key a = some k) :
    Keyed (t.push (head k) a) (Function.update head k (some a)) key (a :: used) := by
  intro j
  have hna : ∀ j, a ∉ used.filter fun i => key i == some j := fun j hmem =>
    ha (List.mem_of_mem_filter hmem)
  by_cases hj : j = k
  · subst hj
    have hfilter : ((a :: used).filter fun i => key i == some j) =
        a :: used.filter fun i => key i == some j := List.filter_cons_of_pos (beq_iff_eq.mpr hk)
    rw [Function.update_self, hfilter]
    exact (h j).push (hna j) (hnodup.filter _)
  · have hneg : ¬ (key a == some j) = true := by
      rw [hk, beq_iff_eq]
      exact fun heq => hj (Option.some.inj heq).symm
    have hfilter : ((a :: used).filter fun i => key i == some j) =
        used.filter fun i => key i == some j := List.filter_cons_of_neg hneg
    rw [Function.update_of_ne hj, hfilter]
    refine (h j).congr fun x hx => Threads.push_frame (fun heq => hna j (heq ▸ hx)) ?_
    -- The head of the other list has the other key.
    intro hhead
    have hxk : x ∈ used.filter fun i => key i == some k :=
      List.mem_of_mem_head? ((h k).head_eq.symm.trans hhead)
    have hxj := beq_iff_eq.mp (List.mem_filter.mp hx).2
    exact hj (Option.some.inj (hxj.symm.trans (beq_iff_eq.mp (List.mem_filter.mp hxk).2)))

end Keyed

end Bluebox.Lib
