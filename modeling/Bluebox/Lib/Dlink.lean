/-
  Bluebox.Lib.Dlink

  Doubly linked lists in a memory of nodes, as programs in C keep them: the head of a list has
  pointers to its first and its last node and counts them, and a node has pointers to its
  neighbours.

  A memory is a function of the addresses of nodes.  `Listed` says which nodes are on a list,
  and `Family` that many lists in one memory have no node in common.  What adds and deletes
  nodes changes only what is on the list at hand, so that every other list stays as it is.
  Loops over lists are bounded, and have no result when the bound is too small.
-/
import Mathlib.Data.List.Nodup
import Mathlib.Data.List.Perm.Subperm
import Mathlib.Logic.Function.Basic

namespace Bluebox.Lib

-- ============================================================================
-- Nodes and lists
-- ============================================================================

/-- A node: what it is for, and its neighbours. -/
structure DlinkNode (N D : Type) where
  data : D
  prev : Option N
  next : Option N
deriving DecidableEq, Repr

/-- The head of a list. -/
structure DlinkList (N : Type) where
  head : Option N
  tail : Option N
  length : Int
deriving DecidableEq, Repr

namespace DlinkList

variable {N D W : Type} [DecidableEq N]

/-- A list without nodes. -/
def empty : DlinkList N := ⟨none, none, 0⟩

/-- Write to the `prev` of a node, if there is one. -/
def setPrev (mem : N → DlinkNode N D) (x prev : Option N) : N → DlinkNode N D :=
  match x with
  | none => mem
  | some x => Function.update mem x { mem x with prev := prev }

/-- Write to the `next` of a node, if there is one. -/
def setNext (mem : N → DlinkNode N D) (x next : Option N) : N → DlinkNode N D :=
  match x with
  | none => mem
  | some x => Function.update mem x { mem x with next := next }

/-- Add a node at the head. -/
def add (mem : N → DlinkNode N D) (list : DlinkList N) (data : D) (m : N) :
    (N → DlinkNode N D) × DlinkList N :=
  let mem := Function.update mem m ⟨data, none, list.head⟩
  let mem := setPrev mem list.head (some m)
  let tail := if list.head = none ∧ list.tail = none then some m else list.tail
  (mem, ⟨some m, tail, list.length + 1⟩)

/-- Take a node out from between its neighbours. -/
def delete (mem : N → DlinkNode N D) (list : DlinkList N) (m : N) : (N → DlinkNode N D) × DlinkList N :=
  let tail := if (mem m).next = none then (mem m).prev else list.tail
  let mem := setPrev mem (mem m).next (mem m).prev
  let head := if (mem m).prev = none then (mem m).next else list.head
  let mem := setNext mem (mem m).prev (mem m).next
  (Function.update mem m { mem m with prev := none, next := none }, ⟨head, tail, list.length - 1⟩)

/-- The first node from `x` on that meets a test; an inner `none` if there is none. -/
def search (mem : N → DlinkNode N D) (p : N → Bool) : Nat → Option N → Option (Option N)
  | _, none => some none
  | 0, some _ => none
  | k + 1, some x => if p x then some (some x) else search mem p k (mem x).next

/-- Delete the first node with the given data, if there is one. -/
def findDelete [DecidableEq D] (mem : N → DlinkNode N D) (list : DlinkList N) (k : Nat) (data : D) :
    Option ((N → DlinkNode N D) × DlinkList N) :=
  (search mem (fun m => (mem m).data == data) k list.head).map fun m => m.elim (mem, list) (delete mem list)

/-- Run the body of a loop for each node from `x` on; the node behind is read before the body is
    run. -/
def foreachSafe (next : W → N → Option N) (body : N → W → Option W) : Nat → Option N → W → Option W
  | _, none, w => some w
  | 0, some _, _ => none
  | k + 1, some x, w =>
    let n := next w x
    (body x w).bind (foreachSafe next body k n)

/-- Run the body for the first node, as long as there is one. -/
def whileHead (head : W → Option N) (body : N → W → Option W) : Nat → W → Option W
  | 0, w => if head w = none then some w else none
  | k + 1, w =>
    match head w with
    | none => some w
    | some x => (body x w).bind (whileHead head body k)

end DlinkList

-- ============================================================================
-- What is on a list
-- ============================================================================

section Listed

variable {N D W : Type} {mem mem' : N → DlinkNode N D} {p n : Option N} {l r xs : List N} {m x : N}

/-- These nodes are linked in this order, behind `p` and before `n`. -/
def Linked (mem : N → DlinkNode N D) : Option N → List N → Option N → Prop
  | _, [], _ => True
  | p, x :: xs, n => (mem x).prev = p ∧ (mem x).next = xs.head?.or n ∧ Linked mem (some x) xs n

/-- The nodes on a list. -/
structure Listed (mem : N → DlinkNode N D) (list : DlinkList N) (xs : List N) : Prop where
  head : list.head = xs.head?
  tail : list.tail = xs.getLast?
  length : list.length = xs.length
  nodup : xs.Nodup
  linked : Linked mem none xs none

theorem Linked.congr (h : Linked mem p xs n) (hmem : ∀ x ∈ xs, mem' x = mem x) : Linked mem' p xs n := by
  induction xs generalizing p with
  | nil => trivial
  | cons x xs ih =>
    obtain ⟨hprev, hnext, hrest⟩ := h
    rw [Linked, hmem x List.mem_cons_self]
    exact ⟨hprev, hnext, ih hrest fun y hy => hmem y (List.mem_cons_of_mem x hy)⟩

theorem linked_append : Linked mem p (l ++ r) n ↔ Linked mem p l (r.head?.or n) ∧ Linked mem (l.getLast?.or p) r n := by
  induction l generalizing p with
  | nil => exact ⟨fun h => ⟨trivial, h⟩, fun h => h.2⟩
  | cons x l ih =>
    have hlast : (x :: l).getLast?.or p = l.getLast?.or (some x) := by
      rw [List.getLast?_cons]
      cases l.getLast? with
      | none => rfl
      | some y => rfl
    rw [List.cons_append, Linked, Linked, ih, List.head?_append, Option.or_assoc, hlast, and_assoc, and_assoc]

variable {list : DlinkList N}

theorem Listed.empty (mem : N → DlinkNode N D) : Listed mem DlinkList.empty [] :=
  ⟨rfl, rfl, rfl, List.nodup_nil, trivial⟩

theorem Listed.congr (h : Listed mem list xs) (hmem : ∀ x ∈ xs, mem' x = mem x) : Listed mem' list xs :=
  ⟨h.head, h.tail, h.length, h.nodup, h.linked.congr hmem⟩

theorem Listed.head_ne (h : Listed mem list xs) (hx : x ∉ xs) : list.head ≠ some x := fun heq =>
  hx (List.mem_of_head? (h.head ▸ heq))

/-- The neighbours of a node on a list. -/
theorem Listed.around (h : Listed mem list (l ++ m :: r)) :
    (mem m).prev = l.getLast? ∧ (mem m).next = r.head? ∧ m ∉ l ∧ m ∉ r ∧ (l ++ r).Nodup := by
  obtain ⟨-, hprev, hnext, -⟩ := linked_append.mp h.linked
  have hnodup := List.nodup_middle.mp h.nodup
  obtain ⟨hout, hrest⟩ := List.nodup_cons.mp hnodup
  rw [Option.or_none] at hprev hnext
  exact ⟨hprev, hnext, fun hm => hout (List.mem_append_left r hm), fun hm => hout (List.mem_append_right l hm), hrest⟩

theorem getLast?_ne_of_notMem (hx : x ∉ l) : l.getLast? ≠ some x := fun heq =>
  hx (List.mem_of_getLast? heq)

theorem head?_ne_of_notMem (hx : x ∉ l) : l.head? ≠ some x := fun heq => hx (List.mem_of_head? heq)

theorem Listed.head_next (h : Listed mem list (x :: xs)) : (mem x).next = xs.head? := by
  rw [h.linked.2.1, Option.or_none]

/-- The pointers say which nodes are on a list. -/
theorem Linked.unique {ys : List N} (h : Linked mem p xs none) (h' : Linked mem p ys none) (heq : xs.head? = ys.head?) :
    xs = ys := by
  induction xs generalizing p ys with
  | nil => exact (List.head?_eq_none_iff.mp heq.symm).symm
  | cons x xs ih =>
    obtain ⟨r, rfl⟩ : ∃ r, ys = x :: r := List.head?_eq_some_iff.mp heq.symm
    rw [ih h.2.2 h'.2.2]
    have hnext := h.2.1.symm.trans h'.2.1
    rwa [Option.or_none, Option.or_none] at hnext

theorem Listed.unique {ys : List N} (h : Listed mem list xs) (h' : Listed mem list ys) : xs = ys :=
  h.linked.unique h'.linked (h.head.symm.trans h'.head)

-- ============================================================================
-- Loops
-- ============================================================================

/-- A search finds the first node that meets the test. -/
theorem Linked.search_eq {f : N → Bool} {k : Nat} (h : Linked mem p xs none) (hk : xs.length ≤ k) :
    DlinkList.search mem f k xs.head? = some (xs.find? f) := by
  induction xs generalizing p k with
  | nil =>
    cases k with
    | zero => rfl
    | succ k => rfl
  | cons x xs ih =>
    obtain ⟨-, hnext, hrest⟩ := h
    rw [List.length_cons] at hk
    obtain ⟨k, rfl⟩ := Nat.exists_eq_succ_of_ne_zero (n := k) (by omega)
    rw [List.head?_cons, DlinkList.search]
    by_cases hf : f x = true
    · rw [if_pos hf, List.find?_cons_of_pos hf]
    · rw [if_neg hf, List.find?_cons_of_neg hf, hnext, Option.or_none]
      exact ih hrest (by omega)

theorem Listed.search_eq {f : N → Bool} {k : Nat} (h : Listed mem list xs) (hk : xs.length ≤ k) :
    DlinkList.search mem f k list.head = some (xs.find? f) := by
  rw [h.head]
  exact h.linked.search_eq hk

theorem foreachSafe_none (next : W → N → Option N) (body : N → W → Option W) (k : Nat) (w : W) :
    DlinkList.foreachSafe next body k none w = some w := by
  cases k with
  | zero => rfl
  | succ k => rfl

/-- The rule for a loop over all nodes of a list: `I` holds of those that are left. -/
theorem foreachSafe_rule {f : W → N → Option N} {b : N → W → Option W} {I : List N → W → Prop}
    (hnext : ∀ x xs w, I (x :: xs) w → f w x = xs.head?)
    (hbody : ∀ x xs w, I (x :: xs) w → ∃ w', b x w = some w' ∧ I xs w') {k : Nat} {w : W}
    (hk : xs.length ≤ k) (h : I xs w) :
    ∃ w', DlinkList.foreachSafe f b k xs.head? w = some w' ∧ I [] w' := by
  induction xs generalizing k w with
  | nil => exact ⟨w, foreachSafe_none f b k w, h⟩
  | cons x xs ih =>
    rw [List.length_cons] at hk
    obtain ⟨k, rfl⟩ := Nat.exists_eq_succ_of_ne_zero (n := k) (by omega)
    obtain ⟨w₁, hrun, hw₁⟩ := hbody x xs w h
    obtain ⟨w₂, hloop, hw₂⟩ := ih (k := k) (by omega) hw₁
    refine ⟨w₂, ?_, hw₂⟩
    rw [List.head?_cons, DlinkList.foreachSafe]
    rw [hrun, Option.bind_some, hnext x xs w h]
    exact hloop

/-- The rule for a loop that empties a list from its head. -/
theorem whileHead_rule {f : W → Option N} {b : N → W → Option W} {I : List N → W → Prop}
    (hhead : ∀ xs w, I xs w → f w = xs.head?)
    (hbody : ∀ x xs w, I (x :: xs) w → ∃ w', b x w = some w' ∧ I xs w') {k : Nat} {w : W}
    (hk : xs.length ≤ k) (h : I xs w) :
    ∃ w', DlinkList.whileHead f b k w = some w' ∧ I [] w' := by
  induction xs generalizing k w with
  | nil =>
    refine ⟨w, ?_, h⟩
    have hnone := hhead [] w h
    cases k with
    | zero => exact if_pos hnone
    | succ k => rw [DlinkList.whileHead, hnone]; rfl
  | cons x xs ih =>
    rw [List.length_cons] at hk
    obtain ⟨k, rfl⟩ := Nat.exists_eq_succ_of_ne_zero (n := k) (by omega)
    obtain ⟨w₁, hrun, hw₁⟩ := hbody x xs w h
    obtain ⟨w₂, hloop, hw₂⟩ := ih (k := k) (by omega) hw₁
    refine ⟨w₂, ?_, hw₂⟩
    rw [DlinkList.whileHead, hhead (x :: xs) w h, List.head?_cons]
    dsimp only
    rw [hrun, Option.bind_some]
    exact hloop

-- ============================================================================
-- Adding and deleting
-- ============================================================================

variable [DecidableEq N]

@[simp] theorem setPrev_data (o q : Option N) (x : N) : (DlinkList.setPrev mem o q x).data = (mem x).data := by
  cases o with
  | none => rfl
  | some y =>
    unfold DlinkList.setPrev
    dsimp only
    by_cases h : x = y
    · subst h
      rw [Function.update_self]
    · rw [Function.update_of_ne h]

@[simp] theorem setNext_data (o q : Option N) (x : N) : (DlinkList.setNext mem o q x).data = (mem x).data := by
  cases o with
  | none => rfl
  | some y =>
    unfold DlinkList.setNext
    dsimp only
    by_cases h : x = y
    · subst h
      rw [Function.update_self]
    · rw [Function.update_of_ne h]

theorem setPrev_of_ne {o : Option N} (h : o ≠ some x) (q : Option N) : DlinkList.setPrev mem o q x = mem x := by
  cases o with
  | none => rfl
  | some y => exact Function.update_of_ne (fun heq => h (congrArg some heq.symm)) _ _

theorem setNext_of_ne {o : Option N} (h : o ≠ some x) (q : Option N) : DlinkList.setNext mem o q x = mem x := by
  cases o with
  | none => rfl
  | some y => exact Function.update_of_ne (fun heq => h (congrArg some heq.symm)) _ _

/-- The first node of a part gets another one before it. -/
theorem Linked.setPrev (h : Linked mem p r n) (hnodup : r.Nodup) (q : Option N) :
    Linked (DlinkList.setPrev mem r.head? q) q r n := by
  cases r with
  | nil => trivial
  | cons x r =>
    obtain ⟨-, hnext, hrest⟩ := h
    have hx := (List.nodup_cons.mp hnodup).1
    refine ⟨?_, ?_, hrest.congr fun y hy => setPrev_of_ne (fun heq => ?_) q⟩
    · exact congrArg DlinkNode.prev (Function.update_self x _ mem)
    · exact (congrArg DlinkNode.next (Function.update_self x _ mem)).trans hnext
    · obtain rfl := Option.some.inj heq
      exact hx hy

/-- The last node of a part gets another one behind it. -/
theorem Linked.setNext (h : Linked mem p l n) (hnodup : l.Nodup) (q : Option N) :
    Linked (DlinkList.setNext mem l.getLast? q) p l q := by
  rcases List.eq_nil_or_concat' l with rfl | ⟨l, x, rfl⟩
  · trivial
  · have hx : x ∉ l := fun hmem => (List.nodup_append.mp hnodup).2.2 x hmem x List.mem_cons_self rfl
    obtain ⟨hl, hprev, -, -⟩ := linked_append.mp h
    rw [List.getLast?_concat]
    refine linked_append.mpr ⟨hl.congr fun y hy => setNext_of_ne (fun heq => ?_) q, ?_, ?_, trivial⟩
    · obtain rfl := Option.some.inj heq
      exact hx hy
    · exact (congrArg DlinkNode.prev (Function.update_self x _ mem)).trans hprev
    · exact congrArg DlinkNode.next (Function.update_self x _ mem)

/-- Adding a node changes no other node but the head. -/
theorem Listed.add_frame (h : Listed mem list xs) (data : D) (hx : x ∉ xs) (hm : x ≠ m) :
    (list.add mem data m).1 x = mem x := by
  unfold DlinkList.add
  dsimp only
  rw [setPrev_of_ne (h.head_ne hx), Function.update_of_ne hm]

theorem add_data (mem : N → DlinkNode N D) (list : DlinkList N) (data : D) (m x : N) :
    ((list.add mem data m).1 x).data = if x = m then data else (mem x).data := by
  unfold DlinkList.add
  dsimp only
  rw [setPrev_data]
  by_cases h : x = m
  · rw [if_pos h, h, Function.update_self]
  · rw [if_neg h, Function.update_of_ne h]

/-- A node that is not on the list is added at its head. -/
theorem Listed.add (h : Listed mem list xs) (hm : m ∉ xs) (data : D) :
    Listed (list.add mem data m).1 (list.add mem data m).2 (m :: xs) := by
  have hself : (list.add mem data m).1 m = ⟨data, none, list.head⟩ := by
    unfold DlinkList.add
    dsimp only
    rw [setPrev_of_ne (h.head_ne hm), Function.update_self]
  have hlinked : Linked (list.add mem data m).1 (some m) xs none := by
    have hold : Linked (Function.update mem m ⟨data, none, list.head⟩) none xs none :=
      h.linked.congr fun x hx => Function.update_of_ne (ne_of_mem_of_not_mem hx hm) _ _
    have hset := hold.setPrev h.nodup (some m)
    rw [← h.head] at hset
    exact hset
  refine ⟨rfl, ?_, ?_, List.nodup_cons.mpr ⟨hm, h.nodup⟩, ?_, ?_, hlinked⟩
  · unfold DlinkList.add
    dsimp only
    rw [h.head, h.tail]
    cases xs with
    | nil => rfl
    | cons x xs =>
      rw [if_neg fun hnone => Option.some_ne_none _ hnone.1, List.getLast?_cons_cons]
  · unfold DlinkList.add
    dsimp only
    rw [h.length, List.length_cons]
    omega
  · rw [hself]
  · rw [hself, Option.or_none]
    exact h.head

theorem delete_data (mem : N → DlinkNode N D) (list : DlinkList N) (m x : N) :
    ((list.delete mem m).1 x).data = (mem x).data := by
  unfold DlinkList.delete
  dsimp only
  by_cases h : x = m
  · subst h
    rw [Function.update_self]
    dsimp only
    rw [setNext_data, setPrev_data]
  · rw [Function.update_of_ne h, setNext_data, setPrev_data]

/-- The memory after a node is deleted that has other nodes around it. -/
theorem Listed.delete_eq (h : Listed mem list (l ++ m :: r)) :
    list.delete mem m =
      (Function.update (DlinkList.setNext (DlinkList.setPrev mem r.head? l.getLast?) l.getLast? r.head?) m
        { mem m with prev := none, next := none },
        ⟨if l.getLast? = none then r.head? else list.head, if r.head? = none then l.getLast? else list.tail,
          list.length - 1⟩) := by
  obtain ⟨hprev, hnext, hml, hmr, -⟩ := h.around
  have hprevself : DlinkList.setPrev mem r.head? l.getLast? m = mem m := setPrev_of_ne (head?_ne_of_notMem hmr) _
  have hnextself : ∀ mem' : N → DlinkNode N D, DlinkList.setNext mem' l.getLast? r.head? m = mem' m :=
    fun mem' => setNext_of_ne (getLast?_ne_of_notMem hml) _
  unfold DlinkList.delete
  dsimp only
  rw [hprev, hnext, hprevself, hprev, hnext, hnextself, hprevself]

/-- Deleting a node changes no node of another list. -/
theorem Listed.delete_frame (h : Listed mem list xs) (hm : m ∈ xs) (hx : x ∉ xs) :
    (list.delete mem m).1 x = mem x := by
  obtain ⟨l, r, rfl⟩ := List.append_of_mem hm
  have hxm : x ≠ m := (ne_of_mem_of_not_mem hm hx).symm
  rw [h.delete_eq]
  dsimp only
  rw [Function.update_of_ne hxm,
    setNext_of_ne (getLast?_ne_of_notMem fun hmem => hx (List.mem_append_left _ hmem)),
    setPrev_of_ne (head?_ne_of_notMem fun hmem => hx (List.mem_append_right l (List.mem_cons_of_mem m hmem)))]

/-- A node is deleted from the list that it is on. -/
theorem Listed.delete (h : Listed mem list xs) (hm : m ∈ xs) :
    Listed (list.delete mem m).1 (list.delete mem m).2 (xs.erase m) := by
  obtain ⟨l, r, rfl⟩ := List.append_of_mem hm
  obtain ⟨-, -, hml, hmr, hnodup⟩ := h.around
  obtain ⟨hl, hr, hdisjoint⟩ := List.nodup_append.mp hnodup
  obtain ⟨hleft, -, -, hright⟩ := linked_append.mp h.linked
  have herase : (l ++ m :: r).erase m = l ++ r := by
    rw [List.erase_append_right _ hml, List.erase_cons_head]
  rw [herase, h.delete_eq]
  refine ⟨?_, ?_, ?_, hnodup, linked_append.mpr ⟨?_, ?_⟩⟩
  · dsimp only
    rw [h.head]
    cases l with
    | nil => rfl
    | cons a l => rw [if_neg (by rw [List.getLast?_cons]; exact Option.some_ne_none _)]; rfl
  · dsimp only
    rw [h.tail]
    cases r with
    | nil => rw [List.head?_nil, if_pos rfl, List.append_nil]
    | cons a r =>
      rw [List.head?_cons, if_neg (Option.some_ne_none a), List.getLast?_append_of_ne_nil _ (List.cons_ne_nil _ _),
        List.getLast?_append_of_ne_nil _ (List.cons_ne_nil _ _), List.getLast?_cons_cons]
  · dsimp only
    rw [h.length, List.length_append, List.length_append, List.length_cons]
    omega
  · have hprev : Linked (DlinkList.setPrev mem r.head? l.getLast?) none l (some m) :=
      hleft.congr fun x hx => setPrev_of_ne (head?_ne_of_notMem fun hmem => hdisjoint x hx x hmem rfl) _
    rw [Option.or_none]
    exact (hprev.setNext hl r.head?).congr fun x hx => Function.update_of_ne (ne_of_mem_of_not_mem hx hml) _ _
  · have hset := hright.setPrev hr l.getLast?
    rw [Option.or_none]
    have hnext : Linked (DlinkList.setNext (DlinkList.setPrev mem r.head? l.getLast?) l.getLast? r.head?)
        l.getLast? r none :=
      hset.congr fun x hx => setNext_of_ne (getLast?_ne_of_notMem fun hmem => hdisjoint x hmem x hx rfl) _
    exact hnext.congr fun x hx => Function.update_of_ne (ne_of_mem_of_not_mem hx hmr) _ _

-- ============================================================================
-- Many lists in one memory
-- ============================================================================

variable {O : Type} [DecidableEq O] {lists : O → DlinkList N} {on : O → List N} {o : O}

/-- Lists that have no node in common. -/
structure Family (mem : N → DlinkNode N D) (lists : O → DlinkList N) (on : O → List N) : Prop where
  listed : ∀ o, Listed mem (lists o) (on o)
  apart : ∀ o o' x, x ∈ on o → x ∈ on o' → o = o'

omit [DecidableEq N] [DecidableEq O] in
theorem Family.empty (mem : N → DlinkNode N D) : Family mem (fun _ : O => DlinkList.empty) fun _ => [] :=
  ⟨fun _ => .empty mem, fun _ _ _ hx => absurd hx List.not_mem_nil⟩

/-- A new node is added to one of the lists. -/
theorem Family.add (h : Family mem lists on) (hm : ∀ o, m ∉ on o) (o : O) (data : D) :
    Family ((lists o).add mem data m).1 (Function.update lists o ((lists o).add mem data m).2)
      (Function.update on o (m :: on o)) where
  listed q := by
    by_cases hq : q = o
    · subst hq
      rw [Function.update_self, Function.update_self]
      exact (h.listed q).add (hm q) data
    · rw [Function.update_of_ne hq, Function.update_of_ne hq]
      refine (h.listed q).congr fun x hx => (h.listed o).add_frame data (fun ho => hq (h.apart q o x hx ho)) ?_
      rintro rfl
      exact hm q hx
  apart q q' x hx hx' := by
    have hcases : ∀ {q}, x ∈ Function.update on o (m :: on o) q → x = m ∧ q = o ∨ x ∈ on q := by
      intro q hx
      by_cases hq : q = o
      · subst hq
        rw [Function.update_self] at hx
        exact (List.mem_cons.mp hx).imp_left fun heq => ⟨heq, rfl⟩
      · rw [Function.update_of_ne hq] at hx
        exact Or.inr hx
    rcases hcases hx with ⟨hxm, hq⟩ | hold
    · rcases hcases hx' with ⟨-, hq'⟩ | hold'
      · exact hq.trans hq'.symm
      · exact absurd (hxm ▸ hold') (hm q')
    · rcases hcases hx' with ⟨hxm, -⟩ | hold'
      · exact absurd (hxm ▸ hold) (hm q)
      · exact h.apart q q' x hold hold'

/-- A node is deleted from the list that it is on. -/
theorem Family.delete (h : Family mem lists on) (hm : m ∈ on o) :
    Family ((lists o).delete mem m).1 (Function.update lists o ((lists o).delete mem m).2)
      (Function.update on o ((on o).erase m)) where
  listed q := by
    by_cases hq : q = o
    · subst hq
      rw [Function.update_self, Function.update_self]
      exact (h.listed q).delete hm
    · rw [Function.update_of_ne hq, Function.update_of_ne hq]
      exact (h.listed q).congr fun x hx => (h.listed o).delete_frame hm fun ho => hq (h.apart q o x hx ho)
  apart q q' x hx hx' := by
    have hsub : ∀ {q}, x ∈ Function.update on o ((on o).erase m) q → x ∈ on q := by
      intro q hx
      by_cases hq : q = o
      · subst hq
        rw [Function.update_self] at hx
        exact List.mem_of_mem_erase hx
      · rw [Function.update_of_ne hq] at hx
        exact hx
    exact h.apart q q' x (hsub hx) (hsub hx')

omit [DecidableEq O] [DecidableEq N] in
/-- Addresses below a bound are no more than that. -/
theorem length_le_of_lt {xs : List Nat} {k : Nat} (hnodup : xs.Nodup) (h : ∀ x ∈ xs, x < k) : xs.length ≤ k := by
  have hsub : xs ⊆ List.range k := fun x hx => List.mem_range.mpr (h x hx)
  have hle := (hnodup.subperm hsub).length_le
  rwa [List.length_range] at hle

/-- Where all nodes of a list have different data, deleting one is leaving out its data. -/
theorem erase_eq_filter {f : N → D} [DecidableEq D] (h : (xs.map f).Nodup) (hm : m ∈ xs) :
    xs.erase m = xs.filter fun x => f x ≠ f m := by
  rw [h.of_map.erase_eq_filter]
  refine List.filter_congr fun x hx => ?_
  have hinj : f x = f m → x = m := List.inj_on_of_nodup_map h hx hm
  by_cases heq : x = m
  · simp [heq]
  · simp [heq, mt hinj heq]

/-- The node with some data is deleted from one of the lists. -/
theorem Family.findDelete [DecidableEq D] (h : Family mem lists on) (o : O) {k : Nat} (hk : (on o).length ≤ k)
    (hnodup : ((on o).map fun m => (mem m).data).Nodup) (data : D) :
    ∃ r, (lists o).findDelete mem k data = some r ∧
      Family r.1 (Function.update lists o r.2)
        (Function.update on o ((on o).filter fun m => (mem m).data ≠ data)) ∧
      ∀ m, (r.1 m).data = (mem m).data := by
  unfold DlinkList.findDelete
  rw [(h.listed o).search_eq hk, Option.map_some]
  cases hfind : (on o).find? fun m => (mem m).data == data with
  | none =>
    refine ⟨_, rfl, ?_, fun _ => rfl⟩
    have hall : (on o).filter (fun m => (mem m).data ≠ data) = on o :=
      List.filter_eq_self.mpr fun m hm => by simpa using List.find?_eq_none.mp hfind m hm
    rw [hall, Function.update_eq_self]
    dsimp only [Option.elim]
    rw [Function.update_eq_self]
    exact h
  | some m =>
    have hm := List.mem_of_find?_eq_some hfind
    have hdata : (mem m).data = data := by simpa using List.find?_some hfind
    refine ⟨_, rfl, ?_, fun x => delete_data mem (lists o) m x⟩
    rw [← hdata, ← erase_eq_filter hnodup hm]
    exact h.delete hm

omit [DecidableEq N] in
/-- The head of a list is set to zero; its nodes are on no list then. -/
theorem Family.reset (h : Family mem lists on) (o : O) :
    Family mem (Function.update lists o DlinkList.empty) (Function.update on o []) where
  listed q := by
    by_cases hq : q = o
    · subst hq
      rw [Function.update_self, Function.update_self]
      exact .empty mem
    · rw [Function.update_of_ne hq, Function.update_of_ne hq]
      exact h.listed q
  apart q q' x hx hx' := by
    have hsub : ∀ {q}, x ∈ Function.update on o [] q → x ∈ on q := by
      intro q hx
      by_cases hq : q = o
      · subst hq
        rw [Function.update_self] at hx
        exact absurd hx List.not_mem_nil
      · rw [Function.update_of_ne hq] at hx
        exact hx
    exact h.apart q q' x (hsub hx) (hsub hx')

end Listed

end Bluebox.Lib
