/-
  Bluebox.Patricia.Walk

  `RB_PATRICIA_WALK` of `libratbox/include/rb_patricia.h`: a current node and a stack of
  right siblings, with the program's own statements in the middle.  Behind them
  `RB_PATRICIA_WALK_END` reads the links of the current node, also where the statements
  have released it; `RB_PATRICIA_WALK_BREAK` goes on with the stack.

  As long as the statements leave the links of the nodes in place, the walk is the
  recursion over the tree that skips what is below a node with a break.
-/
import Bluebox.Patricia.Search

namespace Bluebox.Patricia

variable {β σ : Type}

-- ============================================================================
-- The walk
-- ============================================================================

/-- How a walk ends: with a state, at a link of a node that is not there, or not yet. -/
inductive Outcome (σ : Type)
  | done (s : σ)
  | fault
  | running
deriving DecidableEq, Repr

def Outcome.isDone : Outcome σ → Bool
  | .done _ => true
  | .fault => false
  | .running => false

/-- The loop of `RB_PATRICIA_WALK`, at most so many rounds.  `body` are the statements for a
    node and whether they end in `RB_PATRICIA_WALK_BREAK`, `links` the children that the
    nodes have afterwards. -/
def walk (body : σ → Nat → Option (σ × Bool)) (links : σ → Nat → Option (Option Nat × Option Nat)) :
    Nat → σ → Option Nat → List Nat → Outcome σ
  | 0, _, _, _ => .running
  | _ + 1, s, none, _ => .done s
  | fuel + 1, s, some rn, stack =>
    match body s rn with
    | none => .fault
    | some (s, true) => walk body links fuel s stack.head? stack.tail
    | some (s, false) =>
      match links s rn with
      | none => .fault
      | some (some l, some r) => walk body links fuel s (some l) (r :: stack)
      | some (some l, none) => walk body links fuel s (some l) stack
      | some (none, some r) => walk body links fuel s (some r) stack
      | some (none, none) => walk body links fuel s stack.head? stack.tail

/-- The address of the first node. -/
def Tree.headLoc : Tree β → Option Nat
  | .nil => none
  | .node n _ _ => some n.loc

/-- `node->l` and `node->r` of the node at an address. -/
def Tree.links (loc : Nat) : Tree β → Option (Option Nat × Option Nat)
  | .nil => none
  | .node n l r => if n.loc = loc then some (l.headLoc, r.headLoc) else (l.links loc).or (r.links loc)

/-- The recursion: a node, then its left and its right subtree. -/
def visit (body : σ → Nat → Option (σ × Bool)) (links : σ → Nat → Option (Option Nat × Option Nat)) :
    Tree β → σ → Option σ
  | .nil, s => some s
  | .node n l r, s =>
    match body s n.loc with
    | none => none
    | some (s, true) => some s
    | some (s, false) =>
      match links s n.loc with
      | none => none
      | some _ => (visit body links l s).bind fun s => visit body links r s

/-- The children of all nodes are as in the tree. -/
def Linked (at_ : Nat → Option (Option Nat × Option Nat)) : Tree β → Prop
  | .nil => True
  | .node n l r => at_ n.loc = some (l.headLoc, r.headLoc) ∧ Linked at_ l ∧ Linked at_ r

-- ============================================================================
-- Links
-- ============================================================================

theorem Tree.mem_locs {n : Node β} {l r : Tree β} {loc : Nat} :
    loc ∈ (Tree.node n l r).nodes.map Node.loc ↔
      loc = n.loc ∨ loc ∈ l.nodes.map Node.loc ∨ loc ∈ r.nodes.map Node.loc := by
  rw [Tree.nodes, List.map_cons, List.mem_cons, List.map_append, List.mem_append]

theorem Linked.congr {f g : Nat → Option (Option Nat × Option Nat)} {t : Tree β}
    (h : ∀ loc ∈ t.nodes.map Node.loc, f loc = g loc) (hf : Linked f t) : Linked g t := by
  induction t with
  | nil => exact trivial
  | node n l r ihl ihr =>
    obtain ⟨hn, hl, hr⟩ := hf
    refine ⟨?_, ihl (fun loc hloc => ?_) hl, ihr (fun loc hloc => ?_) hr⟩
    · exact (h n.loc (Tree.mem_locs.mpr (Or.inl rfl))).symm.trans hn
    · exact h loc (Tree.mem_locs.mpr (Or.inr (Or.inl hloc)))
    · exact h loc (Tree.mem_locs.mpr (Or.inr (Or.inr hloc)))

theorem Tree.headLoc_eq_none {t : Tree β} : t.headLoc = none ↔ t.isNil = true := by
  cases t with
  | nil => exact ⟨fun _ => rfl, fun _ => rfl⟩
  | node n l r => exact ⟨fun h => absurd h (Option.some_ne_none _), fun h => absurd h Bool.false_ne_true⟩

theorem Tree.links_isSome {t : Tree β} {loc : Nat} : (t.links loc).isSome ↔ loc ∈ t.nodes.map Node.loc := by
  induction t with
  | nil =>
    refine ⟨fun h => ?_, fun h => absurd h List.not_mem_nil⟩
    cases h
  | node n l r ihl ihr =>
    rw [Tree.links, Tree.mem_locs, ← ihl, ← ihr]
    by_cases hloc : n.loc = loc
    · rw [if_pos hloc]
      exact ⟨fun _ => Or.inl hloc.symm, fun _ => rfl⟩
    · rw [if_neg hloc, Option.isSome_or, Bool.or_eq_true]
      exact ⟨Or.inr, fun h => h.resolve_left (Ne.symm hloc)⟩

theorem Tree.links_eq_none {t : Tree β} {loc : Nat} (h : loc ∉ t.nodes.map Node.loc) : t.links loc = none :=
  Option.not_isSome_iff_eq_none.mp fun hsome => h (Tree.links_isSome.mp hsome)

/-- The addresses in a tree with distinct ones. -/
theorem Tree.nodup_node {n : Node β} {l r : Tree β} (h : ((Tree.node n l r).nodes.map Node.loc).Nodup) :
    n.loc ∉ l.nodes.map Node.loc ∧ n.loc ∉ r.nodes.map Node.loc ∧ (l.nodes.map Node.loc).Nodup ∧
      (r.nodes.map Node.loc).Nodup ∧
      ∀ loc ∈ l.nodes.map Node.loc, loc ∉ r.nodes.map Node.loc := by
  rw [Tree.nodes, List.map_cons, List.map_append, List.nodup_cons, List.mem_append, not_or,
    List.nodup_append] at h
  exact ⟨h.1.1, h.1.2, h.2.1, h.2.2.1, fun loc hl hr => h.2.2.2 loc hl loc hr rfl⟩

/-- In a subtree the links are those of the whole. -/
theorem Tree.links_left {n : Node β} {l r : Tree β} (h : ((Tree.node n l r).nodes.map Node.loc).Nodup) {loc : Nat}
    (hloc : loc ∈ l.nodes.map Node.loc) : (Tree.node n l r).links loc = l.links loc := by
  obtain ⟨hl, -, -, -, hdisj⟩ := Tree.nodup_node h
  have hne : n.loc ≠ loc := fun heq => hl (heq ▸ hloc)
  rw [Tree.links, if_neg hne, Tree.links_eq_none (hdisj loc hloc), Option.or_none]

theorem Tree.links_right {n : Node β} {l r : Tree β} (h : ((Tree.node n l r).nodes.map Node.loc).Nodup) {loc : Nat}
    (hloc : loc ∈ r.nodes.map Node.loc) : (Tree.node n l r).links loc = r.links loc := by
  obtain ⟨-, hr, -, -, hdisj⟩ := Tree.nodup_node h
  have hne : n.loc ≠ loc := fun heq => hr (heq ▸ hloc)
  have hout : loc ∉ l.nodes.map Node.loc := fun hl => hdisj loc hl hloc
  rw [Tree.links, if_neg hne, Tree.links_eq_none hout, Option.none_or]

theorem Tree.linked {t : Tree β} (h : (t.nodes.map Node.loc).Nodup) : Linked (fun loc => t.links loc) t := by
  induction t with
  | nil => exact trivial
  | node n l r ihl ihr =>
    obtain ⟨-, -, hl, hr, -⟩ := Tree.nodup_node h
    refine ⟨if_pos rfl, (ihl hl).congr fun loc hloc => ?_, (ihr hr).congr fun loc hloc => ?_⟩
    · exact (Tree.links_left h hloc).symm
    · exact (Tree.links_right h hloc).symm

-- ============================================================================
-- Removal
-- ============================================================================

section Removal

variable [Inhabited β] {t : Tree β} {loc : Nat}

omit [Inhabited β] in
theorem Tree.links_leaf (h : t.isLeaf loc = true) : t.links loc = some (none, none) := by
  obtain ⟨m, rfl, hm⟩ := Tree.eq_leaf_of_isLeaf h
  exact if_pos hm

/-- Where a node has two children it stays, and so do all links. -/
theorem Tree.links_remove (h : (t.nodes.map Node.loc).Nodup) {a b : Nat}
    (hfull : t.links loc = some (some a, some b)) :
    (remove loc t).headLoc = t.headLoc ∧ ∀ other, (remove loc t).links other = t.links other := by
  induction t with
  | nil => cases hfull
  | node n l r ihl ihr =>
    have hmem := Tree.mem_locs.mp (Tree.links_isSome.mp (Option.isSome_of_mem hfull))
    obtain ⟨hnl, hnr, hl, hr, hdisj⟩ := Tree.nodup_node h
    rw [remove]
    by_cases hhead : n.loc = loc
    · rw [if_pos hhead]
      rw [Tree.links, if_pos hhead] at hfull
      obtain ⟨hla, hrb⟩ := Prod.mk.inj (Option.some.inj hfull)
      have hlnil : ¬ l.isNil = true := fun hnil =>
        Option.some_ne_none a (hla.symm.trans (Tree.headLoc_eq_none.mpr hnil))
      have hrnil : ¬ r.isNil = true := fun hnil =>
        Option.some_ne_none b (hrb.symm.trans (Tree.headLoc_eq_none.mpr hnil))
      rw [if_neg hlnil, if_neg hrnil]
      exact ⟨rfl, fun _ => rfl⟩
    rw [if_neg hhead]
    obtain hin | hin | hin := hmem
    · exact absurd hin.symm hhead
    · rw [Tree.links_left h hin] at hfull
      have hlleaf : ¬ l.isLeaf loc = true := fun hleaf => by
        rw [Tree.links_leaf hleaf] at hfull
        cases hfull
      have hrleaf : ¬ r.isLeaf loc = true := fun hleaf =>
        hdisj loc hin (Tree.links_isSome.mp (by rw [Tree.links_leaf hleaf]; rfl))
      obtain ⟨hheadl, hlinks⟩ := ihl hl hfull
      rw [if_neg hlleaf, if_neg hrleaf, remove_of_not_mem (hdisj loc hin)]
      exact ⟨rfl, fun other => by rw [Tree.links, Tree.links, hheadl, hlinks]⟩
    · rw [Tree.links_right h hin] at hfull
      have hrleaf : ¬ r.isLeaf loc = true := fun hleaf => by
        rw [Tree.links_leaf hleaf] at hfull
        cases hfull
      have hout : loc ∉ l.nodes.map Node.loc := fun hl => hdisj loc hl hin
      have hlleaf : ¬ l.isLeaf loc = true := fun hleaf =>
        hout (Tree.links_isSome.mp (by rw [Tree.links_leaf hleaf]; rfl))
      obtain ⟨hheadr, hlinks⟩ := ihr hr hfull
      rw [if_neg hlleaf, if_neg hrleaf, remove_of_not_mem hout]
      exact ⟨rfl, fun other => by rw [Tree.links, Tree.links, hheadr, hlinks]⟩

/-- Where a child is missing the node is released. -/
theorem Tree.links_released (h : (t.nodes.map Node.loc).Nodup) {a b : Option Nat}
    (hlinks : t.links loc = some (a, b)) (hmissing : a = none ∨ b = none) :
    (remove loc t).links loc = none := by
  induction t with
  | nil => rfl
  | node n l r ihl ihr =>
    have hmem := Tree.mem_locs.mp (Tree.links_isSome.mp (Option.isSome_of_mem hlinks))
    obtain ⟨hnl, hnr, hl, hr, hdisj⟩ := Tree.nodup_node h
    rw [remove]
    by_cases hhead : n.loc = loc
    · rw [if_pos hhead]
      rw [hhead] at hnl hnr
      by_cases hlnil : l.isNil = true
      · rw [if_pos hlnil]
        exact Tree.links_eq_none hnr
      by_cases hrnil : r.isNil = true
      · rw [if_neg hlnil, if_pos hrnil]
        exact Tree.links_eq_none hnl
      rw [Tree.links, if_pos hhead] at hlinks
      obtain ⟨rfl, rfl⟩ := Prod.mk.inj (Option.some.inj hlinks)
      obtain hnone | hnone := hmissing
      · exact absurd (Tree.headLoc_eq_none.mp hnone) hlnil
      · exact absurd (Tree.headLoc_eq_none.mp hnone) hrnil
    rw [if_neg hhead]
    obtain hin | hin | hin := hmem
    · exact absurd hin.symm hhead
    · have hout := hdisj loc hin
      have hrleaf : ¬ r.isLeaf loc = true := fun hleaf =>
        hout (Tree.links_isSome.mp (by rw [Tree.links_leaf hleaf]; rfl))
      rw [Tree.links_left h hin] at hlinks
      by_cases hlleaf : l.isLeaf loc = true
      · rw [if_pos hlleaf]
        split
        · rw [Tree.links, if_neg hhead, Tree.links_eq_none hout]
          rfl
        · exact Tree.links_eq_none hout
      · rw [if_neg hlleaf, if_neg hrleaf, remove_of_not_mem hout, Tree.links, if_neg hhead,
          ihl hl hlinks, Tree.links_eq_none hout]
        rfl
    · have hout : loc ∉ l.nodes.map Node.loc := fun hl => hdisj loc hl hin
      have hlleaf : ¬ l.isLeaf loc = true := fun hleaf =>
        hout (Tree.links_isSome.mp (by rw [Tree.links_leaf hleaf]; rfl))
      rw [Tree.links_right h hin] at hlinks
      rw [if_neg hlleaf]
      by_cases hrleaf : r.isLeaf loc = true
      · rw [if_pos hrleaf]
        split
        · rw [Tree.links, if_neg hhead, Tree.links_eq_none hout]
          rfl
        · exact Tree.links_eq_none hout
      · rw [if_neg hrleaf, remove_of_not_mem hout, Tree.links, if_neg hhead, Tree.links_eq_none hout,
          ihr hr hlinks]
        rfl

end Removal

-- ============================================================================
-- The walk is the recursion
-- ============================================================================

section Visit

variable {body : σ → Nat → Option (σ × Bool)} {links : σ → Nat → Option (Option Nat × Option Nat)}
  {at_ : Nat → Option (Option Nat × Option Nat)} {P : σ → Prop}

/-- Statements that do not fault keep a property, and under it the links are in place. -/
structure Steady (body : σ → Nat → Option (σ × Bool)) (links : σ → Nat → Option (Option Nat × Option Nat))
    (at_ : Nat → Option (Option Nat × Option Nat)) (P : σ → Prop) : Prop where
  links_eq : ∀ {s loc}, P s → links s loc = at_ loc
  skip : ∀ {s s' loc}, P s → body s loc = some (s', true) → P s'
  keep : ∀ {s s' loc}, P s → body s loc = some (s', false) → (links s' loc).isSome → P s'

/-- A round without a break: the left child is next, behind it the right one, then the
    stack. -/
theorem walk_next {s s' : σ} {rn : Nat} {l r : Option Nat} (hbody : body s rn = some (s', false))
    (hlinks : links s' rn = some (l, r)) (fuel : Nat) (stack : List Nat) :
    walk body links (fuel + 1) s (some rn) stack =
      walk body links fuel s' (l.toList ++ (r.toList ++ stack)).head?
        (l.toList ++ (r.toList ++ stack)).tail := by
  rw [walk, hbody]
  dsimp only
  rw [hlinks]
  cases l with
  | none =>
    cases r with
    | none => rfl
    | some r => rfl
  | some l =>
    cases r with
    | none => rfl
    | some r => rfl

/-- A subtree: the walk comes out of it as the recursion does, or faults with it.  By
    induction on the subtree; its head and the stack behind it are one list. -/
theorem walk_subtree (hsteady : Steady body links at_ P) {t : Tree β} :
    ∀ {s : σ} (stack : List Nat), Linked at_ t → P s →
      (∀ s', visit body links t s = some s' → P s' ∧ ∃ k ≤ t.nodes.length, ∀ fuel,
        walk body links (fuel + k) s (t.headLoc.toList ++ stack).head? (t.headLoc.toList ++ stack).tail =
          walk body links fuel s' stack.head? stack.tail) ∧
      (visit body links t s = none → ∀ fuel, t.nodes.length ≤ fuel →
        walk body links fuel s (t.headLoc.toList ++ stack).head? (t.headLoc.toList ++ stack).tail =
          .fault) := by
  induction t with
  | nil =>
    intro s stack _ hP
    refine ⟨fun s' hvisit => ?_, fun hvisit => absurd hvisit (Option.some_ne_none s)⟩
    obtain rfl := Option.some.inj hvisit
    exact ⟨hP, 0, Nat.le_refl 0, fun fuel => rfl⟩
  | node n l r ihl ihr =>
    intro s stack hlinked hP
    obtain ⟨hat, hl, hr⟩ := hlinked
    have hlen : (Tree.node n l r).nodes.length = l.nodes.length + r.nodes.length + 1 := by
      rw [Tree.nodes, List.length_cons, List.length_append]
    rw [visit, hlen, show ((Tree.node n l r).headLoc.toList ++ stack) = n.loc :: stack from rfl,
      List.head?_cons, List.tail_cons]
    cases hbody : body s n.loc with
    | none =>
      refine ⟨fun s' hvisit => absurd hvisit.symm (Option.some_ne_none s'), fun _ fuel hfuel => ?_⟩
      obtain ⟨fuel, rfl⟩ := Nat.exists_eq_add_of_le' (Nat.le_trans (Nat.le_add_left 1 _) hfuel)
      rw [walk, hbody]
    | some x =>
      obtain ⟨s₁, brk⟩ := x
      cases brk with
      | true =>
        refine ⟨fun s' hvisit => ?_, fun hvisit => absurd hvisit (Option.some_ne_none s₁)⟩
        obtain rfl := Option.some.inj hvisit
        refine ⟨hsteady.skip hP hbody, 1, Nat.le_add_left 1 _, fun fuel => ?_⟩
        rw [walk, hbody]
      | false =>
        dsimp only
        cases hlinks : links s₁ n.loc with
        | none =>
          refine ⟨fun s' hvisit => absurd hvisit.symm (Option.some_ne_none s'), fun _ fuel hfuel => ?_⟩
          obtain ⟨fuel, rfl⟩ := Nat.exists_eq_add_of_le' (Nat.le_trans (Nat.le_add_left 1 _) hfuel)
          rw [walk, hbody]
          dsimp only
          rw [hlinks]
        | some c =>
          have hP₁ : P s₁ := hsteady.keep hP hbody (by rw [hlinks]; rfl)
          have hc : links s₁ n.loc = some (l.headLoc, r.headLoc) := (hsteady.links_eq hP₁).trans hat
          have hnext := walk_next hbody hc
          obtain ⟨hdone, hfault⟩ := ihl (r.headLoc.toList ++ stack) hl hP₁
          dsimp only
          cases hvl : visit body links l s₁ with
          | none =>
            refine ⟨fun s' hvisit => absurd hvisit.symm (Option.some_ne_none s'), fun _ fuel hfuel => ?_⟩
            obtain ⟨fuel, rfl⟩ := Nat.exists_eq_add_of_le' (Nat.le_trans (Nat.le_add_left 1 _) hfuel)
            rw [hnext, hfault hvl fuel (by omega)]
          | some s₂ =>
            obtain ⟨hP₂, k, hk, hwalk⟩ := hdone s₂ hvl
            obtain ⟨hdone', hfault'⟩ := ihr stack hr hP₂
            rw [Option.bind_some]
            refine ⟨fun s' hvisit => ?_, fun hvisit fuel hfuel => ?_⟩
            · obtain ⟨hP', k', hk', hwalk'⟩ := hdone' s' hvisit
              refine ⟨hP', k' + k + 1, by omega, fun fuel => ?_⟩
              rw [← Nat.add_assoc, ← Nat.add_assoc, hnext, hwalk, hwalk']
            · obtain ⟨fuel, rfl⟩ := Nat.exists_eq_add_of_le' (Nat.le_trans (show k + 1 ≤ _ by omega) hfuel)
              rw [← Nat.add_assoc, hnext, hwalk, hfault' hvisit fuel (by omega)]

/-- The walk of a tree, with a round for every node and one more to stop. -/
theorem walk_tree (hsteady : Steady body links at_ P) {t : Tree β} {s : σ} (hlinked : Linked at_ t) (hP : P s) :
    walk body links (t.nodes.length + 1) s t.headLoc [] =
      match visit body links t s with
      | some s' => .done s'
      | none => .fault := by
  have hstart : (t.headLoc.toList ++ ([] : List Nat)).head? = t.headLoc ∧
      (t.headLoc.toList ++ ([] : List Nat)).tail = [] := by
    cases t.headLoc with
    | none => exact ⟨rfl, rfl⟩
    | some loc => exact ⟨rfl, rfl⟩
  obtain ⟨hdone, hfault⟩ := walk_subtree hsteady [] hlinked hP
  rw [hstart.1, hstart.2] at hdone hfault
  cases hvisit : visit body links t s with
  | none => exact hfault hvisit _ (Nat.le_add_right _ 1)
  | some s' =>
    obtain ⟨-, k, hk, hwalk⟩ := hdone s' hvisit
    obtain ⟨fuel, hfuel⟩ := Nat.exists_eq_add_of_le' hk
    rw [hfuel, Nat.add_right_comm, hwalk (fuel + 1)]
    rfl

end Visit

end Bluebox.Patricia
