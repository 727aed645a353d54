/-
  Bluebox.Patricia.Nested

  Prefixes inside other prefixes.  What lies inside the prefix of a node is what stands
  below the node, and each half of it below one of its children.  So what a recursion over
  the tree finds, when it does not go below some of the nodes, can be said without the tree.
-/
import Bluebox.Patricia.Search

namespace Bluebox.Patricia

variable {β : Type}

-- ============================================================================
-- Below a node
-- ============================================================================

/-- The prefix of a node is a longer one with the bits of the other. -/
def Node.Inside (q p : Node β) : Prop :=
  ∃ kp kq, p.key = some kp ∧ q.key = some kq ∧ kp.bitlen < kq.bitlen ∧ Agree kp.bitlen kp.addr kq.addr

/-- It is in the left or in the right half. -/
def Node.InHalf (right : Bool) (q p : Node β) : Prop :=
  ∃ kp kq, p.key = some kp ∧ q.key = some kq ∧ kp.bitlen < kq.bitlen ∧
    Agree kp.bitlen kp.addr kq.addr ∧ kq.addr kp.bitlen = right

instance Node.decidableInside (q p : Node β) : Decidable (q.Inside p) :=
  decidable_of_iff ((p.key.any fun kp => q.key.any fun kq =>
    decide (kp.bitlen < kq.bitlen) && compWithMask kp.addr kq.addr kp.bitlen) = true) (by
      unfold Node.Inside
      simp only [Option.any_eq_true, Bool.and_eq_true, decide_eq_true_eq, compWithMask_iff]
      exact ⟨fun ⟨kp, hp, kq, hq, h⟩ => ⟨kp, kq, hp, hq, h⟩, fun ⟨kp, kq, hp, hq, h⟩ => ⟨kp, hp, kq, hq, h⟩⟩)

instance Node.decidableInHalf (right : Bool) (q p : Node β) : Decidable (q.InHalf right p) :=
  decidable_of_iff ((p.key.any fun kp => q.key.any fun kq =>
    decide (kp.bitlen < kq.bitlen) && (compWithMask kp.addr kq.addr kp.bitlen &&
      kq.addr kp.bitlen == right)) = true) (by
      unfold Node.InHalf
      simp only [Option.any_eq_true, Bool.and_eq_true, decide_eq_true_eq, compWithMask_iff, beq_iff_eq]
      exact ⟨fun ⟨kp, hp, kq, hq, h⟩ => ⟨kp, kq, hp, hq, h⟩, fun ⟨kp, kq, hp, hq, h⟩ => ⟨kp, hp, kq, hq, h⟩⟩)

theorem Node.InHalf.inside {right : Bool} {q p : Node β} (h : q.InHalf right p) : q.Inside p := by
  obtain ⟨kp, kq, hp, hq, hlt, hagree, -⟩ := h
  exact ⟨kp, kq, hp, hq, hlt, hagree⟩

theorem Tree.entries_node (n : Node β) (l r : Tree β) :
    (Tree.node n l r).entries = ([n].filter fun n => n.key.isSome) ++ (l.entries ++ r.entries) := by
  unfold Tree.entries
  rw [Tree.nodes, ← List.filter_append, ← List.filter_append]
  rfl

theorem Tree.mem_entries_node {n m : Node β} {l r : Tree β} :
    m ∈ (Tree.node n l r).entries ↔ (m = n ∧ n.key.isSome = true) ∨ m ∈ l.entries ∨ m ∈ r.entries := by
  rw [Tree.mem_entries, Tree.mem_nodes, Tree.mem_entries, Tree.mem_entries, or_and_right, or_and_right]
  exact or_congr_left (and_congr_right fun heq => by rw [heq])

variable [Inhabited β] {maxbits : Nat}

/-- A subtree that is not empty has a prefix. -/
theorem Tree.Wf.exists_entry {t : Tree β} (h : t.Wf maxbits) (hnil : t.isNil = false) :
    ∃ e ∈ t.nodes, ∃ q, e.key = some q := by
  induction t with
  | nil => cases hnil
  | node n l r ihl ihr =>
    cases hk : n.key with
    | some q => exact ⟨n, Tree.mem_nodes.mpr (Or.inl rfl), q, hk⟩
    | none =>
      obtain ⟨e, he, hq⟩ := ihl h.2.1 (h.1.glue hk).2.1
      exact ⟨e, Tree.mem_nodes.mpr (Or.inr (Or.inl he)), hq⟩

/-- A prefix with the bits of an address at a node is below it on the side of the address. -/
theorem NodeOk.mem_side {n e : Node β} {l r : Tree β} (h : NodeOk maxbits n l r) {q : Pfx}
    {addr : Nat → Bool} (he : e ∈ (Tree.node n l r).nodes) (hne : e ≠ n) (hq : e.key = some q)
    (hbit : q.addr n.bit = addr n.bit) : e ∈ (if addr n.bit then r else l).nodes := by
  obtain rfl | he | he := Tree.mem_nodes.mp he
  · exact absurd rfl hne
  · rw [← hbit, (h.left e he).2 q hq, if_neg Bool.false_ne_true]
    exact he
  · rw [← hbit, (h.right e he).2 q hq, if_pos rfl]
    exact he

section Below

variable {n p q : Node β} {l r : Tree β}

/-- The node itself is inside nothing below it. -/
theorem Tree.Wf.not_head_inside (h : (Tree.node n l r).Wf maxbits)
    (hp : p ∈ (Tree.node n l r).nodes) : ¬ n.Inside p := by
  rintro ⟨kp, kn, hkp, hkn, hlt, -⟩
  rw [h.bit_of_key hp hkp, h.1.own kn hkn] at hlt
  exact Nat.not_lt.mpr (h.1.head_le hp) hlt

/-- What is inside a prefix below a child is below the same child. -/
theorem Tree.Wf.inside_side (h : (Tree.node n l r).Wf maxbits) {kp : Pfx} (hkp : p.key = some kp)
    (hbit : n.bit < kp.bitlen) (hq : q ∈ (Tree.node n l r).nodes) (hin : q.Inside p) :
    q ∈ (if kp.addr n.bit then r else l).nodes := by
  obtain ⟨kp', kq, hkp', hkq, hlt, hagree⟩ := hin
  obtain rfl := Option.some.inj (hkp.symm.trans hkp')
  refine h.1.mem_side hq ?_ hkq (hagree n.bit hbit).symm
  rintro rfl
  have hlen := h.1.own kq hkq
  omega

theorem Tree.Wf.inside_left (h : (Tree.node n l r).Wf maxbits) (hp : p ∈ l.nodes)
    (hq : q ∈ (Tree.node n l r).nodes) (hin : q.Inside p) : q ∈ l.nodes := by
  obtain ⟨kp, -, hkp, -⟩ := id hin
  obtain ⟨hbit, haddr⟩ := h.1.left p hp
  rw [← h.2.1.bit_of_key hp hkp] at hbit
  have hside := h.inside_side hkp hbit hq hin
  rwa [haddr kp hkp, if_neg Bool.false_ne_true] at hside

theorem Tree.Wf.inside_right (h : (Tree.node n l r).Wf maxbits) (hp : p ∈ r.nodes)
    (hq : q ∈ (Tree.node n l r).nodes) (hin : q.Inside p) : q ∈ r.nodes := by
  obtain ⟨kp, -, hkp, -⟩ := id hin
  obtain ⟨hbit, haddr⟩ := h.1.right p hp
  rw [← h.2.2.bit_of_key hp hkp] at hbit
  have hside := h.inside_side hkp hbit hq hin
  rwa [haddr kp hkp, if_pos rfl] at hside

/-- What stands below a node with a prefix is inside it. -/
theorem NodeOk.inside_head (h : NodeOk maxbits n l r) {kn kq : Pfx} (hkn : n.key = some kn)
    (hq : q ∈ (Tree.node n l r).nodes) (hkq : q.key = some kq) (hlt : n.bit < kq.bitlen) :
    Agree kn.bitlen kn.addr kq.addr ∧ kn.bitlen < kq.bitlen := by
  have hlen := h.own kn hkn
  rw [hlen]
  exact ⟨h.agree n (Tree.mem_nodes.mpr (Or.inl rfl)) kn hkn q hq kq hkq, hlt⟩

theorem Tree.Wf.inHalf_left (h : (Tree.node n l r).Wf maxbits) {kn : Pfx} (hkn : n.key = some kn)
    {kq : Pfx} (hq : q ∈ l.nodes) (hkq : q.key = some kq) : q.InHalf false n := by
  obtain ⟨hbit, haddr⟩ := h.1.left q hq
  rw [← h.2.1.bit_of_key hq hkq] at hbit
  obtain ⟨hagree, hlt⟩ := h.1.inside_head hkn (Tree.mem_nodes.mpr (Or.inr (Or.inl hq))) hkq hbit
  exact ⟨kn, kq, hkn, hkq, hlt, hagree, by rw [h.1.own kn hkn]; exact haddr kq hkq⟩

theorem Tree.Wf.inHalf_right (h : (Tree.node n l r).Wf maxbits) {kn : Pfx} (hkn : n.key = some kn)
    {kq : Pfx} (hq : q ∈ r.nodes) (hkq : q.key = some kq) : q.InHalf true n := by
  obtain ⟨hbit, haddr⟩ := h.1.right q hq
  rw [← h.2.2.bit_of_key hq hkq] at hbit
  obtain ⟨hagree, hlt⟩ := h.1.inside_head hkn (Tree.mem_nodes.mpr (Or.inr (Or.inr hq))) hkq hbit
  exact ⟨kn, kq, hkn, hkq, hlt, hagree, by rw [h.1.own kn hkn]; exact haddr kq hkq⟩

/-- A half is below its own child. -/
theorem Tree.Wf.mem_of_inHalf (h : (Tree.node n l r).Wf maxbits) {right : Bool}
    (hq : q ∈ (Tree.node n l r).nodes) (hin : q.InHalf right n) : q ∈ (if right then r else l).nodes := by
  obtain ⟨kn, kq, hkn, hkq, hlt, -, hbit⟩ := hin
  rw [h.1.own kn hkn] at hlt hbit
  have hne : q ≠ n := by
    rintro rfl
    rw [h.1.own kq hkq] at hlt
    exact Nat.lt_irrefl _ hlt
  exact @NodeOk.mem_side β _ maxbits n q l r h.1 kq (fun _ => right) hq hne hkq hbit

end Below

-- ============================================================================
-- Not below some nodes
-- ============================================================================

/-- The entries that are kept, from the root on; below one that is not the search ends. -/
def Tree.shown (keep : Node β → Bool) : Tree β → List (Node β)
  | .nil => []
  | .node n l r =>
    if n.key.isNone then l.shown keep ++ r.shown keep
    else if keep n then n :: (l.shown keep ++ r.shown keep)
    else []

omit [Inhabited β] in
theorem Tree.shown_sublist (keep : Node β → Bool) (t : Tree β) : (t.shown keep).Sublist t.entries := by
  induction t with
  | nil => exact List.Sublist.refl []
  | node n l r ihl ihr =>
    rw [Tree.shown]
    cases hk : n.key with
    | none =>
      rw [Tree.entries_of_glue hk]
      exact ihl.append ihr
    | some k =>
      rw [Tree.entries_of_key (by rw [hk]; rfl)]
      by_cases hkeep : keep n = true
      · rw [if_neg (by exact Bool.false_ne_true), if_pos hkeep]
        exact (ihl.append ihr).cons_cons n
      · rw [if_neg (by exact Bool.false_ne_true), if_neg hkeep]
        exact List.nil_sublist _

section Shown

variable {n q : Node β} {l r : Tree β}

/-- What a prefix below the left child is inside of is the node, or below the same child. -/
theorem Tree.Wf.around_left (h : (Tree.node n l r).Wf maxbits) {kq : Pfx} (hkq : q.key = some kq)
    (hq : q ∈ l.nodes) {p : Node β} (hp : p ∈ (Tree.node n l r).nodes) (hin : q.Inside p) :
    p = n ∨ p ∈ l.nodes := by
  obtain rfl | hp | hp := Tree.mem_nodes.mp hp
  · exact Or.inl rfl
  · exact Or.inr hp
  · have hbit := (h.1.right q (h.inside_right hp (Tree.mem_nodes.mpr (Or.inr (Or.inl hq))) hin)).2 kq hkq
    rw [(h.1.left q hq).2 kq hkq] at hbit
    cases hbit

theorem Tree.Wf.around_right (h : (Tree.node n l r).Wf maxbits) {kq : Pfx} (hkq : q.key = some kq)
    (hq : q ∈ r.nodes) {p : Node β} (hp : p ∈ (Tree.node n l r).nodes) (hin : q.Inside p) :
    p = n ∨ p ∈ r.nodes := by
  obtain rfl | hp | hp := Tree.mem_nodes.mp hp
  · exact Or.inl rfl
  · have hbit := (h.1.left q (h.inside_left hp (Tree.mem_nodes.mpr (Or.inr (Or.inr hq))) hin)).2 kq hkq
    rw [(h.1.right q hq).2 kq hkq] at hbit
    cases hbit
  · exact Or.inr hp

omit [Inhabited β] in
/-- For a prefix below a child, what it is inside of is the node and what it is inside of
    below the child. -/
theorem Tree.kept_child {keep : Node β → Bool} {t : Tree β}
    (hsub : ∀ p ∈ t.nodes, p ∈ (Tree.node n l r).nodes) (hhead : n.key.isSome = true → q.Inside n)
    (haround : ∀ p ∈ (Tree.node n l r).nodes, q.Inside p → p = n ∨ p ∈ t.nodes) :
    (∀ p ∈ (Tree.node n l r).entries, q.Inside p → keep p = true) ↔
      (n.key.isSome = true → keep n = true) ∧ ∀ p ∈ t.entries, q.Inside p → keep p = true := by
  refine ⟨fun hall => ⟨fun hn => ?_, fun p hp hin => ?_⟩, fun hall p hp hin => ?_⟩
  · exact hall n (Tree.mem_entries.mpr ⟨Tree.mem_nodes.mpr (Or.inl rfl), hn⟩) (hhead hn)
  · obtain ⟨hp, hkp⟩ := Tree.mem_entries.mp hp
    exact hall p (Tree.mem_entries.mpr ⟨hsub p hp, hkp⟩) hin
  · obtain ⟨hp, hkp⟩ := Tree.mem_entries.mp hp
    obtain rfl | hp := haround p hp hin
    · exact hall.1 hkp
    · exact hall.2 p (Tree.mem_entries.mpr ⟨hp, hkp⟩) hin

omit [Inhabited β] in
/-- Whether something below the node is shown. -/
theorem Tree.mem_shown_below {keep : Node β → Bool} (hne : q ≠ n) :
    q ∈ (Tree.node n l r).shown keep ↔
      (n.key.isSome = true → keep n = true) ∧ (q ∈ l.shown keep ∨ q ∈ r.shown keep) := by
  rw [Tree.shown]
  cases hk : n.key with
  | none =>
    rw [if_pos (by rfl), List.mem_append]
    exact ⟨fun h => ⟨fun hn => absurd hn Bool.false_ne_true, h⟩, fun h => h.2⟩
  | some k =>
    rw [if_neg (by exact Bool.false_ne_true)]
    by_cases hkeep : keep n = true
    · rw [if_pos hkeep, List.mem_cons, List.mem_append]
      exact ⟨fun h => ⟨fun _ => hkeep, h.resolve_left hne⟩, fun h => Or.inr h.2⟩
    · rw [if_neg hkeep]
      exact ⟨fun h => absurd h List.not_mem_nil, fun h => absurd (h.1 rfl) hkeep⟩

end Shown

/-- What is shown are the kept entries that are inside kept ones only. -/
theorem Tree.Wf.mem_shown {t : Tree β} (h : t.Wf maxbits) (keep : Node β → Bool) {q : Node β}
    (hq : q ∈ t.entries) :
    q ∈ t.shown keep ↔ keep q = true ∧ ∀ p ∈ t.entries, q.Inside p → keep p = true := by
  induction t with
  | nil => cases hq
  | node n l r ihl ihr =>
    obtain ⟨hmem, hkq⟩ := Tree.mem_entries.mp hq
    obtain ⟨kq, hkq⟩ := Option.isSome_iff_exists.mp hkq
    have hout : ∀ {s : Tree β}, q ∉ s.nodes → q ∉ s.shown keep := fun hs hin =>
      hs (Tree.mem_entries.mp ((Tree.shown_sublist keep _).subset hin)).1
    have hboth : q ∈ l.nodes → q ∉ r.nodes := by
      intro hl hr
      have hbit := (h.1.left q hl).2 kq hkq
      rw [(h.1.right q hr).2 kq hkq] at hbit
      cases hbit
    have hlt : q ∈ l.nodes ∨ q ∈ r.nodes → q ≠ n := by
      rintro (hl | hr) rfl
      · exact Nat.lt_irrefl _ (h.1.left q hl).1
      · exact Nat.lt_irrefl _ (h.1.right q hr).1
    obtain rfl | hl | hr := Tree.mem_nodes.mp hmem
    · -- the node itself is inside nothing
      have hself : ∀ p ∈ (Tree.node q l r).entries, q.Inside p → keep p = true := fun p hp hin =>
        absurd hin (h.not_head_inside (Tree.mem_entries.mp hp).1)
      rw [Tree.shown, hkq, if_neg (by exact Bool.false_ne_true)]
      by_cases hkeep : keep q = true
      · rw [if_pos hkeep]
        exact ⟨fun _ => ⟨hkeep, hself⟩, fun _ => List.mem_cons_self⟩
      · rw [if_neg hkeep]
        exact ⟨fun hin => absurd hin List.not_mem_nil, fun hin => absurd hin.1 hkeep⟩
    · have hhead : n.key.isSome = true → q.Inside n := fun hn =>
        (h.inHalf_left (Option.some_get hn).symm hl hkq).inside
      rw [Tree.mem_shown_below (hlt (Or.inl hl)),
        Tree.kept_child (fun p hp => Tree.mem_nodes.mpr (Or.inr (Or.inl hp))) hhead
          (fun p => h.around_left hkq hl), or_iff_left (hout (hboth hl)),
        ihl h.2.1 (Tree.mem_entries.mpr ⟨hl, by rw [hkq]; rfl⟩), and_left_comm]
    · have hhead : n.key.isSome = true → q.Inside n := fun hn =>
        (h.inHalf_right (Option.some_get hn).symm hr hkq).inside
      rw [Tree.mem_shown_below (hlt (Or.inr hr)),
        Tree.kept_child (fun p hp => Tree.mem_nodes.mpr (Or.inr (Or.inr hp))) hhead
          (fun p => h.around_right hkq hr), or_iff_right (hout fun hl => hboth hl hr),
        ihr h.2.2 (Tree.mem_entries.mpr ⟨hr, by rw [hkq]; rfl⟩), and_left_comm]

-- ============================================================================
-- Two children
-- ============================================================================

/-- Some of the entries have two children. -/
def Tree.TwoChildren (sel : Node β → Bool) : Tree β → Prop
  | .nil => True
  | .node n l r =>
    (n.key.isSome = true → sel n = true → l.isNil = false ∧ r.isNil = false) ∧
      l.TwoChildren sel ∧ r.TwoChildren sel

omit [Inhabited β] in
theorem Tree.mem_of_isNil {t : Tree β} {q : Node β} (hq : q ∈ t.nodes) : t.isNil = false := by
  cases t with
  | nil => cases hq
  | node n l r => rfl

/-- They do if and only if each half of their prefix has another one inside. -/
theorem Tree.Wf.twoChildren_iff {t : Tree β} (h : t.Wf maxbits) (sel : Node β → Bool) :
    t.TwoChildren sel ↔ ∀ p ∈ t.entries, sel p = true → ∀ right, ∃ q ∈ t.entries, q.InHalf right p := by
  induction t with
  | nil => exact ⟨fun _ p hp => absurd hp List.not_mem_nil, fun _ => trivial⟩
  | node n l r ihl ihr =>
    have hup : ∀ {q}, q ∈ l.entries ∨ q ∈ r.entries → q ∈ (Tree.node n l r).entries := by
      rintro q (hq | hq)
      · exact Tree.mem_entries.mpr ((Tree.mem_entries.mp hq).imp_left fun hq =>
          Tree.mem_nodes.mpr (Or.inr (Or.inl hq)))
      · exact Tree.mem_entries.mpr ((Tree.mem_entries.mp hq).imp_left fun hq =>
          Tree.mem_nodes.mpr (Or.inr (Or.inr hq)))
    rw [Tree.TwoChildren, ihl h.2.1, ihr h.2.2]
    refine ⟨fun hall p hp hsel right => ?_, fun hall => ⟨fun hn hsel => ?_, fun p hp hsel right => ?_,
      fun p hp hsel right => ?_⟩⟩
    · obtain ⟨hp, hkp⟩ := Tree.mem_entries.mp hp
      obtain rfl | hp | hp := Tree.mem_nodes.mp hp
      · obtain ⟨hl, hr⟩ := hall.1 hkp hsel
        cases right with
        | false =>
          obtain ⟨q, hq, kq, hkq⟩ := h.2.1.exists_entry hl
          exact ⟨q, hup (Or.inl (Tree.mem_entries.mpr ⟨hq, by rw [hkq]; rfl⟩)),
            h.inHalf_left (Option.some_get hkp).symm hq hkq⟩
        | true =>
          obtain ⟨q, hq, kq, hkq⟩ := h.2.2.exists_entry hr
          exact ⟨q, hup (Or.inr (Tree.mem_entries.mpr ⟨hq, by rw [hkq]; rfl⟩)),
            h.inHalf_right (Option.some_get hkp).symm hq hkq⟩
      · obtain ⟨q, hq, hin⟩ := hall.2.1 p (Tree.mem_entries.mpr ⟨hp, hkp⟩) hsel right
        exact ⟨q, hup (Or.inl hq), hin⟩
      · obtain ⟨q, hq, hin⟩ := hall.2.2 p (Tree.mem_entries.mpr ⟨hp, hkp⟩) hsel right
        exact ⟨q, hup (Or.inr hq), hin⟩
    · have hn' : n ∈ (Tree.node n l r).entries :=
        Tree.mem_entries.mpr ⟨Tree.mem_nodes.mpr (Or.inl rfl), hn⟩
      obtain ⟨q, hq, hin⟩ := hall n hn' hsel false
      obtain ⟨q', hq', hin'⟩ := hall n hn' hsel true
      exact ⟨Tree.mem_of_isNil (h.mem_of_inHalf (Tree.mem_entries.mp hq).1 hin),
        Tree.mem_of_isNil (h.mem_of_inHalf (Tree.mem_entries.mp hq').1 hin')⟩
    · obtain ⟨q, hq, hin⟩ := hall p (hup (Or.inl hp)) hsel right
      obtain ⟨hq, hkq⟩ := Tree.mem_entries.mp hq
      have hql := h.inside_left (Tree.mem_entries.mp hp).1 hq hin.inside
      exact ⟨q, Tree.mem_entries.mpr ⟨hql, hkq⟩, hin⟩
    · obtain ⟨q, hq, hin⟩ := hall p (hup (Or.inr hp)) hsel right
      obtain ⟨hq, hkq⟩ := Tree.mem_entries.mp hq
      have hqr := h.inside_right (Tree.mem_entries.mp hp).1 hq hin.inside
      exact ⟨q, Tree.mem_entries.mpr ⟨hqr, hkq⟩, hin⟩

end Bluebox.Patricia
