/-
  Bluebox.Patricia.Search

  Searching a Patricia tree, removing a node from it and writing its data.
-/
import Mathlib.Data.List.Nodup
import Bluebox.Patricia.Spec

namespace Bluebox.Patricia

variable {β : Type} {maxbits : Nat}

-- ============================================================================
-- Search
-- ============================================================================

theorem Node.covers_iff {n : Node β} {addr : Nat → Bool} :
    n.covers addr = true ↔ ∃ q, n.key = some q ∧ Agree q.bitlen q.addr addr := by
  unfold Node.covers
  rw [Option.any_eq_true]
  simp only [compWithMask_iff]

theorem mem_bestStack {p : Pfx} {t : Tree β} {stack : List (Node β)} {m : Node β}
    (h : m ∈ bestStack p t stack) : m ∈ stack ∨ m ∈ t.entries := by
  induction t generalizing stack with
  | nil => exact Or.inl h
  | node n l r ihl ihr =>
    have hpush : ∀ {m}, m ∈ (if n.key.isSome then n :: stack else stack) →
        m ∈ stack ∨ m ∈ (Tree.node n l r).entries := by
      intro m hm
      split at hm
      · rename_i hk
        obtain rfl | hm := List.mem_cons.mp hm
        · exact Or.inr (Tree.mem_entries.mpr ⟨Tree.mem_nodes.mpr (Or.inl rfl), hk⟩)
        · exact Or.inl hm
      · exact Or.inl hm
    rw [bestStack] at h
    split at h
    · split at h
      · obtain h | h := ihr h
        · exact hpush h
        · obtain ⟨hm, hk⟩ := Tree.mem_entries.mp h
          exact Or.inr (Tree.mem_entries.mpr ⟨Tree.mem_nodes.mpr (Or.inr (Or.inr hm)), hk⟩)
      · obtain h | h := ihl h
        · exact hpush h
        · obtain ⟨hm, hk⟩ := Tree.mem_entries.mp h
          exact Or.inr (Tree.mem_entries.mpr ⟨Tree.mem_nodes.mpr (Or.inr (Or.inl hm)), hk⟩)
    · exact hpush h

theorem bestStack_subset {p : Pfx} {t : Tree β} {stack : List (Node β)} {m : Node β}
    (h : m ∈ stack) : m ∈ bestStack p t stack := by
  induction t generalizing stack with
  | nil => exact h
  | node n l r ihl ihr =>
    have hpush : m ∈ (if n.key.isSome then n :: stack else stack) := by
      split
      · exact List.mem_cons_of_mem n h
      · exact h
    rw [bestStack]
    split
    · split
      · exact ihr hpush
      · exact ihl hpush
    · exact hpush

variable [Inhabited β]

/-- Every prefix that is not longer than the one asked for and covers it lies on
    the way. -/
theorem mem_bestStack_of_covers {p : Pfx} {t : Tree β} (h : t.Wf maxbits) {m : Node β}
    (hm : m ∈ t.nodes) {q : Pfx} (hq : m.key = some q) (hlen : q.bitlen ≤ p.bitlen)
    (hagree : Agree q.bitlen q.addr p.addr) (stack : List (Node β)) : m ∈ bestStack p t stack := by
  induction t generalizing stack with
  | nil => cases hm
  | node n l r ihl ihr =>
    obtain ⟨hok, hl, hr⟩ := h
    rw [bestStack]
    obtain rfl | hm | hm := Tree.mem_nodes.mp hm
    · have hpush : m ∈ (if m.key.isSome then m :: stack else stack) := by
        rw [hq, if_pos Option.isSome_some]
        exact List.mem_cons_self
      split
      · split
        · exact bestStack_subset hpush
        · exact bestStack_subset hpush
      · exact hpush
    · have hlt : n.bit < q.bitlen := by
        rw [hl.bit_of_key hm hq]
        exact (hok.left m hm).1
      have hside : p.addr n.bit = false := by
        rw [← hagree n.bit hlt]
        exact (hok.left m hm).2 q hq
      rw [if_pos (Nat.lt_of_lt_of_le hlt hlen), hside, if_neg Bool.false_ne_true]
      exact ihl hl hm _
    · have hlt : n.bit < q.bitlen := by
        rw [hr.bit_of_key hm hq]
        exact (hok.right m hm).1
      have hside : p.addr n.bit = true := by
        rw [← hagree n.bit hlt]
        exact (hok.right m hm).2 q hq
      rw [if_pos (Nat.lt_of_lt_of_le hlt hlen), hside, if_pos rfl]
      exact ihr hr hm _

omit [Inhabited β] in
theorem searchBest_some {t : Tree β} {p : Pfx} {m : Node β} (h : searchBest t p = some m) :
    m ∈ t.entries ∧ m.covers p.addr = true := by
  unfold searchBest at h
  have hcovers := List.find?_some h
  refine ⟨?_, hcovers⟩
  obtain hm | hm := mem_bestStack (List.mem_of_find?_eq_some h)
  · cases hm
  · exact hm

theorem searchBest_none {t : Tree β} (hwf : t.Wf maxbits) {p : Pfx} (h : searchBest t p = none)
    {m : Node β} (hm : m ∈ t.nodes) {q : Pfx} (hq : m.key = some q) (hlen : q.bitlen ≤ p.bitlen) :
    ¬ Agree q.bitlen q.addr p.addr := by
  intro hagree
  refine List.find?_eq_none.mp h m (mem_bestStack_of_covers hwf hm hq hlen hagree []) ?_
  exact Node.covers_iff.mpr ⟨q, hq, hagree⟩

theorem searchExact_some {t : Tree β} (hwf : t.Wf maxbits) {p : Pfx} {m : Node β}
    (h : searchExact p t = some m) : m ∈ t.nodes ∧ m.Holds p := by
  induction t with
  | nil => cases h
  | node n l r ihl ihr =>
    obtain ⟨hok, hl, hr⟩ := hwf
    rw [searchExact] at h
    split at h
    · split at h
      · obtain ⟨hm, hp⟩ := ihr hr h
        exact ⟨Tree.mem_nodes.mpr (Or.inr (Or.inr hm)), hp⟩
      · obtain ⟨hm, hp⟩ := ihl hl h
        exact ⟨Tree.mem_nodes.mpr (Or.inr (Or.inl hm)), hp⟩
    rename_i hge
    split at h
    · cases h
    rename_i hstop
    split at h
    · rename_i hcovers
      obtain rfl := Option.some.inj h
      obtain ⟨q, hq, hagree⟩ := Node.covers_iff.mp hcovers
      have hlen : q.bitlen = p.bitlen := by
        rw [hok.own q hq]
        have hle : ¬ n.bit > p.bitlen := fun hgt => hstop (Or.inl hgt)
        omega
      exact ⟨Tree.mem_nodes.mpr (Or.inl rfl), q, hq, hlen, hlen ▸ hagree⟩
    · cases h

theorem searchExact_of_holds {t : Tree β} (hwf : t.Wf maxbits) {p : Pfx} {m : Node β}
    (hm : m ∈ t.nodes) (hp : m.Holds p) : searchExact p t = some m := by
  induction t with
  | nil => cases hm
  | node n l r ihl ihr =>
    have hwf' := hwf
    obtain ⟨hok, hl, hr⟩ := hwf
    obtain ⟨q, hq, hlen, hagree⟩ := hp
    rw [searchExact]
    have hbit : m.bit = p.bitlen := (hwf'.bit_of_key hm hq).symm.trans hlen
    obtain rfl | hm | hm := Tree.mem_nodes.mp hm
    · rw [if_neg (by omega), if_neg, if_pos]
      · exact Node.covers_iff.mpr ⟨q, hq, hlen ▸ hagree⟩
      · rw [hq]
        rintro (hgt | hnone)
        · omega
        · cases hnone
    · have hlt : n.bit < p.bitlen := hbit ▸ (hok.left m hm).1
      have hside : p.addr n.bit = false := by
        rw [← hagree n.bit hlt]
        exact (hok.left m hm).2 q hq
      rw [if_pos hlt, hside, if_neg Bool.false_ne_true]
      exact ihl hl hm
    · have hlt : n.bit < p.bitlen := hbit ▸ (hok.right m hm).1
      have hside : p.addr n.bit = true := by
        rw [← hagree n.bit hlt]
        exact (hok.right m hm).2 q hq
      rw [if_pos hlt, hside, if_pos rfl]
      exact ihr hr hm

-- ============================================================================
-- Data
-- ============================================================================

/-- One node with new data. -/
def Node.update (loc : Nat) (f : β → β) (n : Node β) : Node β :=
  if n.loc = loc then { n with data := f n.data } else n

omit [Inhabited β] in
theorem Node.update_same (loc : Nat) (f : β → β) (n : Node β) :
    (n.update loc f).loc = n.loc ∧ (n.update loc f).bit = n.bit ∧ (n.update loc f).key = n.key := by
  unfold Node.update
  split
  · exact ⟨rfl, rfl, rfl⟩
  · exact ⟨rfl, rfl, rfl⟩

omit [Inhabited β] in
theorem Tree.nodes_setData (loc : Nat) (f : β → β) (t : Tree β) :
    (t.setData loc f).nodes = t.nodes.map (Node.update loc f) := by
  induction t with
  | nil => rfl
  | node n l r ihl ihr =>
    rw [Tree.setData, Tree.nodes, Tree.nodes, ihl, ihr, List.map_cons, List.map_append]
    rfl

omit [Inhabited β] in
theorem Tree.isNil_setData (loc : Nat) (f : β → β) (t : Tree β) :
    (t.setData loc f).isNil = t.isNil := by
  cases t with
  | nil => rfl
  | node n l r => rfl

omit [Inhabited β] in
theorem Tree.entries_setData (loc : Nat) (f : β → β) (t : Tree β) :
    (t.setData loc f).entries = t.entries.map (Node.update loc f) := by
  unfold Tree.entries
  rw [Tree.nodes_setData, List.filter_map]
  congr 1
  refine List.filter_congr fun n _ => ?_
  exact congrArg Option.isSome (Node.update_same loc f n).2.2

omit [Inhabited β] in
theorem Tree.locs_setData (loc : Nat) (f : β → β) (t : Tree β) :
    (t.setData loc f).nodes.map Node.loc = t.nodes.map Node.loc := by
  rw [Tree.nodes_setData, List.map_map]
  exact List.map_congr_left fun n _ => (Node.update_same loc f n).1

/-- Data is written to a node with a prefix. -/
theorem Tree.Wf.setData {t : Tree β} (h : t.Wf maxbits) {loc : Nat} (f : β → β)
    (hkey : ∀ m ∈ t.nodes, m.loc = loc → m.key.isSome = true) : (t.setData loc f).Wf maxbits := by
  induction t with
  | nil => trivial
  | node n l r ihl ihr =>
    obtain ⟨hok, hl, hr⟩ := h
    refine ⟨?_, ihl hl fun m hm => hkey m (Tree.mem_nodes.mpr (Or.inr (Or.inl hm))),
      ihr hr fun m hm => hkey m (Tree.mem_nodes.mpr (Or.inr (Or.inr hm)))⟩
    obtain ⟨-, hbit, hkey'⟩ := Node.update_same loc f n
    have hchild : ∀ {s : Tree β} {b : Bool},
        (∀ m ∈ s.nodes, n.bit < m.bit ∧ ∀ q, m.key = some q → q.addr n.bit = b) →
        ∀ m ∈ (s.setData loc f).nodes, (n.update loc f).bit < m.bit ∧
          ∀ q, m.key = some q → q.addr (n.update loc f).bit = b := by
      intro s b hs m hm
      rw [Tree.nodes_setData] at hm
      obtain ⟨m', hm', rfl⟩ := List.mem_map.mp hm
      obtain ⟨-, hbit', hkey''⟩ := Node.update_same loc f m'
      rw [hbit, hbit', hkey'']
      exact hs m' hm'
    refine ⟨?_, ?_, ?_, hchild hok.left, hchild hok.right, ?_⟩
    · intro q hq
      exact (hok.own q (hkey'.symm.trans hq)).trans hbit.symm
    · intro hk
      have hk' : n.key = none := hkey'.symm.trans hk
      have hne : n.loc ≠ loc := by
        intro hloc
        have hsome := hkey n (Tree.mem_nodes.mpr (Or.inl rfl)) hloc
        rw [hk'] at hsome
        cases hsome
      rw [Tree.isNil_setData, Tree.isNil_setData, if_neg hne]
      exact hok.glue hk'
    · exact Nat.le_trans (Nat.le_of_eq hbit) hok.bound
    · intro m hm q hq m' hm' q' hq'
      have hnodes : (Tree.node (n.update loc f) (l.setData loc f) (r.setData loc f)).nodes =
          (Tree.node n l r).nodes.map (Node.update loc f) := Tree.nodes_setData loc f (.node n l r)
      change m ∈ (Tree.node (n.update loc f) (l.setData loc f) (r.setData loc f)).nodes at hm
      change m' ∈ (Tree.node (n.update loc f) (l.setData loc f) (r.setData loc f)).nodes at hm'
      rw [hnodes] at hm hm'
      obtain ⟨x, hx, rfl⟩ := List.mem_map.mp hm
      obtain ⟨x', hx', rfl⟩ := List.mem_map.mp hm'
      refine (hok.agree x hx q ((Node.update_same loc f x).2.2.symm.trans hq) x' hx' q'
        ((Node.update_same loc f x').2.2.symm.trans hq')).mono (Nat.le_of_eq hbit)

-- ============================================================================
-- Removal
-- ============================================================================

/-- A tree that lost an entry; a node that stays may have become glue. -/
structure Shrunk (maxbits : Nat) (e : Node β) (t t' : Tree β) : Prop where
  wf : t'.Wf maxbits
  nodes : ∀ m ∈ t'.nodes, ∃ m' ∈ t.nodes, m.bit = m'.bit ∧ ∀ q, m.key = some q → m'.key = some q
  locs : (t'.nodes.map Node.loc).Sublist (t.nodes.map Node.loc)
  entries : t.entries.Perm (e :: t'.entries)
  notNil : t.isLeaf e.loc = false → t'.isNil = false

theorem remove_of_not_mem {loc : Nat} {t : Tree β} (h : loc ∉ t.nodes.map Node.loc) :
    remove loc t = t := by
  induction t with
  | nil => rfl
  | node n l r ihl ihr =>
    rw [Tree.nodes, List.map_cons, List.map_append, List.mem_cons, List.mem_append, not_or,
      not_or] at h
    obtain ⟨hn, hl, hr⟩ := h
    have hleaf : ∀ {s : Tree β}, loc ∉ s.nodes.map Node.loc → ¬ s.isLeaf loc = true := by
      intro s hs hs'
      unfold Tree.isLeaf at hs'
      split at hs'
      · refine hs ?_
        rw [← eq_of_beq hs']
        exact List.mem_cons_self
      · cases hs'
    rw [remove, if_neg (Ne.symm hn), if_neg (hleaf hl), if_neg (hleaf hr), ihl hl, ihr hr]

omit [Inhabited β] in
theorem Tree.eq_leaf_of_isLeaf {loc : Nat} {t : Tree β} (h : t.isLeaf loc = true) :
    ∃ n, t = .node n .nil .nil ∧ n.loc = loc := by
  unfold Tree.isLeaf at h
  split at h
  · exact ⟨_, rfl, eq_of_beq h⟩
  · cases h

/-- The removal of the head. -/
theorem shrunk_head {n : Node β} {l r : Tree β} (h : (Tree.node n l r).Wf maxbits)
    (hk : n.key.isSome = true) :
    Shrunk maxbits n (.node n l r) (if l.isNil then r else if r.isNil then l
      else .node { n with key := none, data := default } l r) := by
  by_cases hl : l.isNil = true
  · rw [if_pos hl, Tree.eq_nil_of_isNil hl]
    refine ⟨h.2.2, fun m hm => ⟨m, Tree.mem_nodes.mpr (Or.inr (Or.inr hm)), rfl, fun q hq => hq⟩,
      ?_, ?_, ?_⟩
    · exact List.sublist_cons_self _ _
    · rw [Tree.entries_of_key hk]
      exact List.Perm.refl _
    · intro hleaf
      cases r with
      | nil => simp [Tree.isLeaf] at hleaf
      | node _ _ _ => rfl
  rw [if_neg hl]
  by_cases hr : r.isNil = true
  · rw [if_pos hr, Tree.eq_nil_of_isNil hr]
    refine ⟨h.2.1, fun m hm => ⟨m, Tree.mem_nodes.mpr (Or.inr (Or.inl hm)), rfl, fun q hq => hq⟩,
      ?_, ?_, fun _ => Bool.eq_false_iff.mpr hl⟩
    · rw [Tree.nodes, Tree.nodes, List.append_nil]
      exact List.sublist_cons_self _ _
    · rw [Tree.entries_of_key hk]
      exact List.Perm.cons _ (List.Perm.of_eq (List.append_nil _))
  · rw [if_neg hr]
    have hnodes : ∀ m ∈ (Tree.node { n with key := none, data := default } l r).nodes,
        ∃ m' ∈ (Tree.node n l r).nodes, m.bit = m'.bit ∧ ∀ q, m.key = some q → m'.key = some q := by
      intro m hm
      obtain rfl | hm := Tree.mem_nodes.mp hm
      · exact ⟨n, Tree.mem_nodes.mpr (Or.inl rfl), rfl,
          fun q hq => absurd hq (Option.some_ne_none q).symm⟩
      · exact ⟨m, Tree.mem_nodes.mpr (Or.inr hm), rfl, fun q hq => hq⟩
    refine ⟨⟨⟨fun q hq => absurd hq (Option.some_ne_none q).symm, fun _ => ⟨rfl, Bool.eq_false_iff.mpr hl, Bool.eq_false_iff.mpr hr⟩, h.1.bound,
      h.1.left, h.1.right, ?_⟩, h.2⟩, hnodes, List.Sublist.refl _, ?_, fun _ => rfl⟩
    · intro m hm q hq m' hm' q' hq'
      obtain ⟨x, hx, -, hkey⟩ := hnodes m hm
      obtain ⟨x', hx', -, hkey'⟩ := hnodes m' hm'
      exact h.1.agree x hx q (hkey q hq) x' hx' q' (hkey' q' hq')
    · rw [Tree.entries_of_key hk, Tree.entries_of_glue rfl]

/-- A removal below a node that keeps what it needs. -/
theorem Shrunk.fill {e : Node β} {c : Crumb β} {t t' : Tree β} (hs : Shrunk maxbits e t t')
    (h : (c.fill t).Wf maxbits) (hglue : c.n.key = none → t'.isNil = false) :
    Shrunk maxbits e (c.fill t) (c.fill t') := by
  have he := Tree.mem_entries.mp (hs.entries.mem_iff.mpr List.mem_cons_self)
  obtain ⟨p, hp⟩ := Option.isSome_iff_exists.mp he.2
  -- the prefixes of the whole agree with the one that goes
  have hagree : ∀ m ∈ (c.fill t).nodes, ∀ q, m.key = some q → Agree c.n.bit p.addr q.addr := by
    obtain ⟨l, r, hnode, -⟩ := c.fill_eq t
    have hin : e ∈ (c.fill t).nodes := Crumb.mem_fill.mpr (Or.inr (Or.inl he.1))
    rw [hnode] at h hin ⊢
    exact fun m hm q hq => h.1.agree e hin p hp m hm q hq
  obtain ⟨hok, -, hother⟩ := Crumb.ok_of_wf h hagree
  have hnodes : ∀ m ∈ (c.fill t').nodes,
      ∃ m' ∈ (c.fill t).nodes, m.bit = m'.bit ∧ ∀ q, m.key = some q → m'.key = some q := by
    intro m hm
    obtain hm | hm | hm := Crumb.mem_fill.mp hm
    · exact ⟨m, Crumb.mem_fill.mpr (Or.inl hm), rfl, fun q hq => hq⟩
    · obtain ⟨m', hm', hbit, hkey⟩ := hs.nodes m hm
      exact ⟨m', Crumb.mem_fill.mpr (Or.inr (Or.inl hm')), hbit, hkey⟩
    · exact ⟨m, Crumb.mem_fill.mpr (Or.inr (Or.inr hm)), rfl, fun q hq => hq⟩
  refine ⟨Crumb.Ok.wf (p := p) ⟨hok.own, ?_, hok.bound, ?_, hok.outside, ?_⟩ hs.wf hother, hnodes,
    ?_, ?_, fun _ => Crumb.isNil_fill _ _⟩
  · exact fun hk => ⟨(hok.glue hk).1, hglue hk, (hok.glue hk).2.2⟩
  · intro m hm
    obtain ⟨m', hm', hbit, hkey⟩ := hs.nodes m hm
    rw [hbit]
    exact ⟨(hok.inside m' hm').1, fun q hq => (hok.inside m' hm').2 q (hkey q hq)⟩
  · intro m hm q hq
    obtain ⟨m', hm', -, hkey⟩ := hnodes m hm
    exact hagree m' hm' q (hkey q hq)
  · obtain ⟨n, right, other⟩ := c
    cases right with
    | true =>
      refine List.Sublist.cons_cons _ ?_
      rw [List.map_append, List.map_append]
      exact hs.locs.append_left _
    | false =>
      refine List.Sublist.cons_cons _ ?_
      rw [List.map_append, List.map_append]
      exact hs.locs.append_right _
  · exact (c.entries_fill t).trans ((hs.entries.append_right _).trans
      (List.Perm.cons _ (c.entries_fill t').symm))

/-- Glue that loses a leaf. -/
theorem shrunk_glue {e : Node β} {c : Crumb β}
    (h : (c.fill (.node e .nil .nil)).Wf maxbits) (hglue : c.n.key = none)
    (he : e.key.isSome = true) :
    Shrunk maxbits e (c.fill (.node e .nil .nil)) c.other := by
  obtain ⟨n, right, other⟩ := c
  have hother : other.Wf maxbits ∧ other.isNil = false := by
    cases right with
    | true => exact ⟨h.2.1, (h.1.glue hglue).2.1⟩
    | false => exact ⟨h.2.2, (h.1.glue hglue).2.2⟩
  refine ⟨hother.1, ?_, ?_, ?_, fun _ => hother.2⟩
  · exact fun m hm => ⟨m, Crumb.mem_fill.mpr (Or.inr (Or.inr hm)), rfl, fun q hq => hq⟩
  · cases right with
    | true =>
      refine List.Sublist.cons _ ?_
      rw [List.map_append]
      exact List.sublist_append_left _ _
    | false =>
      refine List.Sublist.cons _ ?_
      rw [List.map_append]
      exact List.sublist_append_right _ _
  · refine (Crumb.entries_fill _ _).trans ?_
    rw [Tree.entries_of_key he, List.filter_cons_of_neg (by rw [show n.key = none from hglue]; nofun)]
    exact List.Perm.refl _

/-- `rb_patricia_remove` of a node with a prefix. -/
theorem remove_shrunk {t : Tree β} (h : t.Wf maxbits) (hlocs : (t.nodes.map Node.loc).Nodup)
    {e : Node β} (he : e ∈ t.entries) : Shrunk maxbits e t (remove e.loc t) := by
  obtain ⟨hmem, hkey⟩ := Tree.mem_entries.mp he
  clear he
  induction t with
  | nil => cases hmem
  | node n l r ihl ihr =>
    have hsame : ∀ {m}, m ∈ (Tree.node n l r).nodes → m.loc = e.loc → m = e :=
      fun hm hloc => List.inj_on_of_nodup_map hlocs hm hmem hloc
    rw [Tree.nodes, List.map_cons, List.map_append, List.nodup_cons, List.nodup_append] at hlocs
    obtain ⟨hn, hlocsl, hlocsr, hdisj⟩ := hlocs
    rw [remove]
    by_cases hhead : n.loc = e.loc
    · rw [if_pos hhead]
      have hne := hsame (Tree.mem_nodes.mpr (Or.inl rfl)) hhead
      rw [← hne] at hkey ⊢
      exact shrunk_head h hkey
    rw [if_neg hhead]
    have hin : e ∈ l.nodes ∨ e ∈ r.nodes := by
      obtain rfl | hin := Tree.mem_nodes.mp hmem
      · exact absurd rfl hhead
      · exact hin
    by_cases hl : l.isLeaf e.loc = true
    · rw [if_pos hl]
      obtain ⟨m, rfl, hm⟩ := Tree.eq_leaf_of_isLeaf hl
      obtain rfl := hsame (Tree.mem_nodes.mpr (Or.inr (Or.inl List.mem_cons_self))) hm
      by_cases hk : n.key.isSome = true
      · rw [if_pos hk]
        refine (shrunk_head h.2.1 hkey).fill (c := ⟨n, false, r⟩) h fun hnone => ?_
        rw [show n.key = none from hnone] at hk
        cases hk
      · rw [if_neg hk]
        exact shrunk_glue (c := ⟨n, false, r⟩) h (Option.not_isSome_iff_eq_none.mp hk) hkey
    rw [if_neg hl]
    by_cases hr : r.isLeaf e.loc = true
    · rw [if_pos hr]
      obtain ⟨m, rfl, hm⟩ := Tree.eq_leaf_of_isLeaf hr
      obtain rfl := hsame (Tree.mem_nodes.mpr (Or.inr (Or.inr List.mem_cons_self))) hm
      by_cases hk : n.key.isSome = true
      · rw [if_pos hk]
        refine (shrunk_head h.2.2 hkey).fill (c := ⟨n, true, l⟩) h fun hnone => ?_
        rw [show n.key = none from hnone] at hk
        cases hk
      · rw [if_neg hk]
        exact shrunk_glue (c := ⟨n, true, l⟩) h (Option.not_isSome_iff_eq_none.mp hk) hkey
    rw [if_neg hr]
    obtain hin | hin := hin
    · have hout : e.loc ∉ r.nodes.map Node.loc := fun hout =>
        hdisj e.loc (List.mem_map_of_mem hin) e.loc hout rfl
      rw [remove_of_not_mem hout]
      have ih := ihl h.2.1 hlocsl hin
      exact ih.fill (c := ⟨n, false, r⟩) h fun _ => ih.notNil (Bool.eq_false_iff.mpr hl)
    · have hout : e.loc ∉ l.nodes.map Node.loc := fun hout =>
        hdisj e.loc hout e.loc (List.mem_map_of_mem hin) rfl
      rw [remove_of_not_mem hout]
      have ih := ihr h.2.2 hlocsr hin
      exact ih.fill (c := ⟨n, true, l⟩) h fun _ => ih.notNil (Bool.eq_false_iff.mpr hr)

-- ============================================================================
-- The data under a prefix
-- ============================================================================

/-- What the tree holds for a prefix. -/
def Tree.dataAt (t : Tree β) (p : Pfx) : β := ((searchExact p t).map Node.data).getD default

/-- A tree with its pointers: they are distinct, and those from `next` on free. -/
structure Tree.Sound (maxbits next : Nat) (t : Tree β) : Prop where
  wf : t.Wf maxbits
  nodup : (t.nodes.map Node.loc).Nodup
  lt : ∀ loc ∈ t.nodes.map Node.loc, loc < next

variable {next : Nat} {t : Tree β} {p : Pfx} {m e : Node β}

theorem Tree.sound_nil : (Tree.nil : Tree β).Sound maxbits next := ⟨trivial, List.nodup_nil, nofun⟩

omit [Inhabited β] in
theorem Node.Holds.isSome (h : m.Holds p) : m.key.isSome = true := by
  obtain ⟨q, hq, -⟩ := h
  rw [hq]
  rfl

theorem newNode_holds (loc : Nat) (p : Pfx) : (newNode loc p : Node β).Holds p :=
  ⟨p, rfl, rfl, fun _ _ => rfl⟩

theorem Tree.Sound.deref (h : t.Sound maxbits next) (hm : m ∈ t.nodes) :
    t.deref m.loc = some m := by
  unfold Tree.deref
  cases hf : t.nodes.find? fun n => n.loc == m.loc with
  | none => exact absurd (beq_self_eq_true m.loc) (by simpa using List.find?_eq_none.mp hf m hm)
  | some n =>
    have hloc := List.find?_some hf
    rw [beq_iff_eq] at hloc
    rw [List.inj_on_of_nodup_map h.nodup (List.mem_of_find?_eq_some hf) hm hloc]

theorem Tree.Sound.dataAt (h : t.Sound maxbits next) (hm : m ∈ t.nodes) (hp : m.Holds p) :
    t.dataAt p = m.data := by
  unfold Tree.dataAt
  rw [searchExact_of_holds h.wf hm hp]
  rfl

theorem Tree.Sound.dataAt_none (h : t.Sound maxbits next) (hp : ∀ m ∈ t.nodes, ¬ m.Holds p) :
    t.dataAt p = default := by
  unfold Tree.dataAt
  cases hs : searchExact p t with
  | none => rfl
  | some m =>
    obtain ⟨hm, hholds⟩ := searchExact_some h.wf hs
    exact absurd hholds (hp m hm)

theorem Tree.Sound.eq_of_loc (h : t.Sound maxbits next) (hm : m ∈ t.nodes) (he : e ∈ t.nodes)
    (hloc : m.loc = e.loc) : m = e := List.inj_on_of_nodup_map h.nodup hm he hloc

/-- `rb_patricia_lookup`: a node for the prefix is there, nothing else changes. -/
theorem Tree.Sound.lookup (h : t.Sound maxbits next) (hlen : p.bitlen ≤ maxbits) :
    ∃ x, lookup maxbits p next t = some x ∧ x.1.Sound maxbits (next + 2) ∧
      (∃ e ∈ x.1.nodes, e.loc = x.2 ∧ e.Holds p ∧
        ∀ m ∈ x.1.entries, m ∈ t.entries ∨ m = e ∧ e = newNode x.2 p ∧ ∀ n ∈ t.nodes, ¬ n.Holds p) ∧
      (∀ m ∈ t.entries, m ∈ x.1.entries) ∧ ∀ p', x.1.dataAt p' = t.dataAt p' := by
  obtain ⟨differ, x, hx, hgrown⟩ := lookup_grown h.wf hlen next
  obtain ⟨fresh, hfresh, hlocs⟩ := hgrown.locs
  have hge : ∀ loc ∈ fresh, next ≤ loc ∧ loc < next + 2 := by
    intro loc hloc
    have hin := hfresh.subset hloc
    rw [List.mem_cons, List.mem_singleton] at hin
    omega
  have hsound : x.1.Sound maxbits (next + 2) := by
    refine ⟨hgrown.wf, ?_, ?_⟩
    · refine hlocs.nodup_iff.mpr (List.nodup_append.mpr ⟨hfresh.nodup (by simp), h.nodup, ?_⟩)
      intro a ha b hb hab
      exact absurd (h.lt b hb) (Nat.not_lt.mpr (hab ▸ (hge a ha).1))
    · intro loc hloc
      rw [hlocs.mem_iff, List.mem_append] at hloc
      obtain hloc | hloc := hloc
      · exact (hge loc hloc).2
      · exact Nat.lt_of_lt_of_le (h.lt loc hloc) (Nat.le_add_right _ _)
  refine ⟨x, hx, hsound, ?_⟩
  obtain ⟨heq, m, hm, hloc, hholds⟩ | hperm := hgrown.entries
  · rw [heq]
    exact ⟨⟨m, hm, hloc, hholds, fun _ hm' => Or.inl hm'⟩, fun _ hm' => hm', fun _ => rfl⟩
  -- the prefix was not there: otherwise two nodes would have it
  have hnew : newNode x.2 p ∈ x.1.nodes :=
    (Tree.mem_entries.mp (hperm.mem_iff.mpr List.mem_cons_self)).1
  have hold : ∀ m ∈ t.entries, m ∈ x.1.entries := fun m hm =>
    hperm.mem_iff.mpr (List.mem_cons_of_mem _ hm)
  have hentries : x.1.entries.Nodup := (List.Nodup.of_map _ hsound.nodup).filter _
  have hnone : ∀ n ∈ t.nodes, ¬ n.Holds p := by
    intro n hn hp
    have hn' := Tree.mem_entries.mpr ⟨hn, hp.isSome⟩
    have heq := hsound.wf.holds_unique (Tree.mem_entries.mp (hold n hn')).1 hnew hp (newNode_holds _ _)
    exact (List.nodup_cons.mp (hperm.nodup_iff.mp hentries)).1 (heq ▸ hn')
  refine ⟨⟨newNode x.2 p, hnew, rfl, newNode_holds _ _, ?_⟩, hold, ?_⟩
  · intro m hm
    obtain rfl | hm := List.mem_cons.mp (hperm.mem_iff.mp hm)
    · exact Or.inr ⟨rfl, rfl, hnone⟩
    · exact Or.inl hm
  · intro p'
    by_cases hhas : ∃ m ∈ t.nodes, m.Holds p'
    · obtain ⟨m, hm, hp'⟩ := hhas
      have hm' := hold m (Tree.mem_entries.mpr ⟨hm, hp'.isSome⟩)
      rw [h.dataAt hm hp', hsound.dataAt (Tree.mem_entries.mp hm').1 hp']
    · rw [h.dataAt_none fun m hm hp' => hhas ⟨m, hm, hp'⟩]
      by_cases hhas' : (newNode x.2 p : Node β).Holds p'
      · exact hsound.dataAt hnew hhas'
      · refine hsound.dataAt_none fun m hm hp' => ?_
        have hm' := hperm.mem_iff.mp (Tree.mem_entries.mpr ⟨hm, hp'.isSome⟩)
        obtain rfl | hm' := List.mem_cons.mp hm'
        · exact hhas' hp'
        · exact hhas ⟨m, (Tree.mem_entries.mp hm').1, hp'⟩

/-- The data of a node with a prefix is written. -/
theorem Tree.Sound.setData (h : t.Sound maxbits next) (he : e ∈ t.entries) (f : β → β) :
    (t.setData e.loc f).Sound maxbits next ∧
      (∀ p, e.Holds p → (t.setData e.loc f).dataAt p = f e.data) ∧
      ∀ p, ¬ e.Holds p → (t.setData e.loc f).dataAt p = t.dataAt p := by
  obtain ⟨hmem, hkey⟩ := Tree.mem_entries.mp he
  have hsound : (t.setData e.loc f).Sound maxbits next := by
    refine ⟨h.wf.setData f fun m hm hloc => ?_, ?_, ?_⟩
    · rw [h.eq_of_loc hm hmem hloc]
      exact hkey
    · rw [Tree.locs_setData]
      exact h.nodup
    · rw [Tree.locs_setData]
      exact h.lt
  have hholds : ∀ {m : Node β} {p}, (m.update e.loc f).Holds p ↔ m.Holds p := by
    intro m p
    unfold Node.Holds
    rw [(Node.update_same e.loc f m).2.2]
  have hin : ∀ {m}, m ∈ t.nodes → m.update e.loc f ∈ (t.setData e.loc f).nodes := by
    intro m hm
    rw [Tree.nodes_setData]
    exact List.mem_map_of_mem hm
  refine ⟨hsound, ?_, ?_⟩
  · intro p hp
    rw [hsound.dataAt (hin hmem) (hholds.mpr hp)]
    unfold Node.update
    rw [if_pos rfl]
  · intro p hp
    by_cases hhas : ∃ m ∈ t.nodes, m.Holds p
    · obtain ⟨m, hm, hp'⟩ := hhas
      rw [h.dataAt hm hp', hsound.dataAt (hin hm) (hholds.mpr hp')]
      unfold Node.update
      rw [if_neg]
      intro hloc
      exact hp (h.eq_of_loc hm hmem hloc ▸ hp')
    · rw [h.dataAt_none fun m hm hp' => hhas ⟨m, hm, hp'⟩]
      refine hsound.dataAt_none fun m hm hp' => ?_
      rw [Tree.nodes_setData] at hm
      obtain ⟨m', hm', rfl⟩ := List.mem_map.mp hm
      exact hhas ⟨m', hm', hholds.mp hp'⟩

/-- `rb_patricia_remove` takes one prefix away. -/
theorem Tree.Sound.remove (h : t.Sound maxbits next) (he : e ∈ t.entries) :
    (remove e.loc t).Sound maxbits next ∧ t.entries.Perm (e :: (remove e.loc t).entries) ∧
      (∀ p, e.Holds p → (remove e.loc t).dataAt p = default) ∧
      ∀ p, ¬ e.Holds p → (remove e.loc t).dataAt p = t.dataAt p := by
  have hshrunk := remove_shrunk h.wf h.nodup he
  have hperm := hshrunk.entries
  have hsound : (Patricia.remove e.loc t).Sound maxbits next :=
    ⟨hshrunk.wf, hshrunk.locs.nodup h.nodup, fun loc hloc => h.lt loc (hshrunk.locs.subset hloc)⟩
  have hentries : t.entries.Nodup := (List.Nodup.of_map _ h.nodup).filter _
  refine ⟨hsound, hperm, ?_, ?_⟩
  · intro p hp
    refine hsound.dataAt_none fun m hm hp' => ?_
    have hm' : m ∈ (Patricia.remove e.loc t).entries := Tree.mem_entries.mpr ⟨hm, hp'.isSome⟩
    have hin := hperm.mem_iff.mpr (List.mem_cons_of_mem e hm')
    have heq := h.wf.holds_unique (Tree.mem_entries.mp hin).1 (Tree.mem_entries.mp he).1 hp' hp
    exact (List.nodup_cons.mp (hperm.nodup_iff.mp hentries)).1 (heq ▸ hm')
  · intro p hp
    by_cases hhas : ∃ m ∈ t.nodes, m.Holds p
    · obtain ⟨m, hm, hp'⟩ := hhas
      have hin := hperm.mem_iff.mp (Tree.mem_entries.mpr ⟨hm, hp'.isSome⟩)
      obtain rfl | hin := List.mem_cons.mp hin
      · exact absurd hp' hp
      · rw [h.dataAt hm hp', hsound.dataAt (Tree.mem_entries.mp hin).1 hp']
    · rw [h.dataAt_none fun m hm hp' => hhas ⟨m, hm, hp'⟩]
      refine hsound.dataAt_none fun m hm hp' => ?_
      have hm' : m ∈ (Patricia.remove e.loc t).entries := Tree.mem_entries.mpr ⟨hm, hp'.isSome⟩
      exact hhas ⟨m, (Tree.mem_entries.mp (hperm.mem_iff.mpr (List.mem_cons_of_mem e hm'))).1, hp'⟩

end Bluebox.Patricia
