/-
  Bluebox.Patricia.Table

  A table of IPv4 prefixes under insertions and removals: what `rb_match_ip` and
  `rb_match_ip_exact` find in it, and `num_active_node`.

  The prefixes that were inserted and not removed are the abstract table.  The stack of
  `rb_patricia_search_best2` is sorted by length, so the first prefix on it that covers the
  address is the longest one.
-/
import Mathlib.Data.Set.Basic
import Bluebox.Lib.Reach
import Bluebox.Hostmask

namespace Bluebox.Patricia

open Bluebox.Lib

variable {β : Type}

-- ============================================================================
-- num_active_node
-- ============================================================================

/-- What `rb_patricia_lookup` adds to `num_active_node` at the node where it ends up. -/
def graftNew (p : Pfx) (differ : Nat) : Tree β → Nat
  | .nil => 0
  | .node n _ _ =>
    if differ = p.bitlen ∧ n.bit = p.bitlen then 0
    else if n.bit = differ then 1
    else if p.bitlen = differ then 1
    else 2

/-- What `rb_patricia_lookup` adds to `num_active_node`. -/
def lookupNew (maxbits : Nat) (p : Pfx) (t : Tree β) : Nat :=
  match t with
  | .nil => 1
  | t =>
    match (descend maxbits p t []).1 with
    | .nil => 0
    | .node n _ _ =>
      (n.key.map fun test =>
        graftNew p (differBit p.addr test.addr (min n.bit p.bitlen))
          (climb (differBit p.addr test.addr (min n.bit p.bitlen)) (descend maxbits p t []).1
            (descend maxbits p t []).2).1).getD 0

/-- What `rb_patricia_remove` takes from `num_active_node`. -/
def removeFreed (loc : Nat) : Tree β → Nat
  | .nil => 0
  | .node n l r =>
    if n.loc = loc then
      if l.isNil then 1
      else if r.isNil then 1
      else 0
    else if l.isLeaf loc then
      if n.key.isSome then 1 else 2
    else if r.isLeaf loc then
      if n.key.isSome then 1 else 2
    else removeFreed loc l + removeFreed loc r

theorem Tree.length_node (n : Node β) (l r : Tree β) :
    (Tree.node n l r).nodes.length = l.nodes.length + r.nodes.length + 1 := by
  rw [Tree.nodes, List.length_cons, List.length_append]

theorem Tree.length_nil_of_isNil {t : Tree β} (h : t.isNil = true) : t.nodes.length = 0 := by
  rw [Tree.eq_nil_of_isNil h]
  rfl

theorem Tree.length_leaf_of_isLeaf {t : Tree β} {loc : Nat} (h : t.isLeaf loc = true) :
    t.nodes.length = 1 := by
  obtain ⟨n, rfl, -⟩ := Tree.eq_leaf_of_isLeaf h
  rfl

theorem Crumb.length_fill (c : Crumb β) (t : Tree β) :
    (c.fill t).nodes.length = t.nodes.length + (c.other.nodes.length + 1) := by
  unfold Crumb.fill
  split
  · rw [Tree.length_node]
    omega
  · rw [Tree.length_node]
    omega

/-- A change below a path changes the number of nodes as it does there. -/
theorem length_plug (t t' : Tree β) (path : List (Crumb β)) :
    (plug t path).nodes.length + t'.nodes.length = (plug t' path).nodes.length + t.nodes.length := by
  induction path generalizing t t' with
  | nil => exact Nat.add_comm _ _
  | cons c path ih =>
    have h := ih (c.fill t) (c.fill t')
    rw [Crumb.length_fill, Crumb.length_fill] at h
    rw [plug, plug]
    omega

theorem plug_climb (differ : Nat) (t : Tree β) (path : List (Crumb β)) :
    plug (climb differ t path).1 (climb differ t path).2 = plug t path := by
  induction path generalizing t with
  | nil => rfl
  | cons c path ih =>
    rw [climb]
    split
    · exact ih _
    · rfl

theorem length_remove (loc : Nat) (t : Tree β) [Inhabited β] :
    t.nodes.length = (remove loc t).nodes.length + removeFreed loc t := by
  induction t with
  | nil => rfl
  | node n l r ihl ihr =>
    rw [remove, removeFreed, Tree.length_node]
    by_cases hloc : n.loc = loc
    · rw [if_pos hloc, if_pos hloc]
      by_cases hl : l.isNil = true
      · rw [if_pos hl, if_pos hl, Tree.length_nil_of_isNil hl]
        omega
      · rw [if_neg hl, if_neg hl]
        by_cases hr : r.isNil = true
        · rw [if_pos hr, if_pos hr, Tree.length_nil_of_isNil hr]
        · rw [if_neg hr, if_neg hr, Tree.length_node]
    · rw [if_neg hloc, if_neg hloc]
      by_cases hl : l.isLeaf loc = true
      · rw [if_pos hl, if_pos hl, Tree.length_leaf_of_isLeaf hl]
        by_cases hk : n.key.isSome = true
        · rw [if_pos hk, if_pos hk, Tree.length_node]
          show _ = 0 + _ + 1 + 1
          omega
        · rw [if_neg hk, if_neg hk]
          omega
      · rw [if_neg hl, if_neg hl]
        by_cases hr : r.isLeaf loc = true
        · rw [if_pos hr, if_pos hr, Tree.length_leaf_of_isLeaf hr]
          by_cases hk : n.key.isSome = true
          · rw [if_pos hk, if_pos hk, Tree.length_node]
            rfl
          · rw [if_neg hk, if_neg hk]
        · rw [if_neg hr, if_neg hr, Tree.length_node]
          omega

variable [Inhabited β]

/-- A new child takes the place of what was there, if anything; otherwise no node is lost. -/
theorem length_graft (maxbits : Nat) (p : Pfx) (test : Nat → Bool) (differ next : Nat) (t : Tree β) :
    ∃ lost, (graft maxbits p test differ next t).1.nodes.length + lost =
        t.nodes.length + graftNew p differ t ∧
      (lost = 0 ∨ (graft maxbits p test differ next t).2 = next ∧ graftNew p differ t = 1) := by
  cases t with
  | nil => exact ⟨0, rfl, Or.inl rfl⟩
  | node n l r =>
    rw [graft, graftNew]
    by_cases hhere : differ = p.bitlen ∧ n.bit = p.bitlen
    · rw [if_pos hhere, if_pos hhere]
      refine ⟨0, ?_, Or.inl rfl⟩
      by_cases hk : n.key.isSome = true
      · rw [if_pos hk]
      · rw [if_neg hk, Tree.length_node, Tree.length_node]
    rw [if_neg hhere, if_neg hhere]
    dsimp only
    have hempty : (Tree.nil : Tree β).nodes.length = 0 := rfl
    by_cases hbit : n.bit = differ
    · rw [if_pos hbit, if_pos hbit]
      by_cases hside : side maxbits p.addr n.bit = true
      · rw [if_pos hside]
        refine ⟨r.nodes.length, ?_, Or.inr ⟨rfl, rfl⟩⟩
        simp only [Tree.length_node, hempty]
        omega
      · rw [if_neg hside]
        refine ⟨l.nodes.length, ?_, Or.inr ⟨rfl, rfl⟩⟩
        simp only [Tree.length_node, hempty]
        omega
    rw [if_neg hbit, if_neg hbit]
    refine ⟨0, ?_, Or.inl rfl⟩
    by_cases hlen : p.bitlen = differ
    · rw [if_pos hlen, if_pos hlen]
      split
      · simp only [Tree.length_node, hempty]
        omega
      · simp only [Tree.length_node, hempty]
    · rw [if_neg hlen, if_neg hlen]
      split
      · simp only [Tree.length_node, hempty]
      · simp only [Tree.length_node, hempty]
        omega

/-- `num_active_node` grows by the number of new nodes. -/
theorem length_lookup {maxbits next : Nat} {p : Pfx} {t : Tree β} (h : t.Sound maxbits next)
    (hlen : p.bitlen ≤ maxbits) {x : Tree β × Nat} (hx : lookup maxbits p next t = some x) :
    x.1.nodes.length = t.nodes.length + lookupNew maxbits p t := by
  obtain ⟨differ, y, hy, hgrown⟩ := lookup_grown h.wf hlen next
  obtain rfl := Option.some.inj (hy.symm.trans hx)
  obtain ⟨fresh, -, hlocs⟩ := hgrown.locs
  have hcount := hlocs.length_eq
  rw [List.length_append, List.length_map, List.length_map] at hcount
  -- a new node has the first free address, which no old node has
  have hnew : y.2 = next → 1 ≤ fresh.length := by
    intro hnext
    have hin : next ∈ y.1.nodes.map Node.loc := by
      obtain ⟨-, m, hm, hloc, -⟩ | hperm := hgrown.entries
      · exact absurd (h.lt m.loc (List.mem_map_of_mem hm)) (by rw [hloc, hnext]; exact Nat.lt_irrefl _)
      · have hmem := (Tree.mem_entries.mp (hperm.mem_iff.mpr List.mem_cons_self)).1
        rw [← hnext]
        exact List.mem_map_of_mem hmem
    rw [hlocs.mem_iff, List.mem_append] at hin
    obtain hin | hin := hin
    · exact List.length_pos_of_mem hin
    · exact absurd (h.lt next hin) (Nat.lt_irrefl _)
  cases t with
  | nil =>
    obtain rfl := Option.some.inj hx
    rfl
  | node m l r =>
    obtain ⟨n, l', r', test, hstop, htest, -⟩ := descend_stop (p := p) h.wf rfl
    obtain ⟨hback, -⟩ := descend_back (p := p) h.wf
    rw [lookup] at hx
    · rw [lookupNew]
      · rw [hstop] at hx ⊢
        dsimp only at hx ⊢
        rw [htest] at hx ⊢
        obtain rfl := Option.some.inj hx
        rw [← hstop] at hnew hcount ⊢
        dsimp only at hnew hcount ⊢
        rw [Option.map_some, Option.getD_some]
        obtain ⟨lost, hgraft, hlost⟩ := length_graft maxbits p test.addr
          (differBit p.addr test.addr (min n.bit p.bitlen)) next
          (climb (differBit p.addr test.addr (min n.bit p.bitlen)) (descend maxbits p (.node m l r) []).1
            (descend maxbits p (.node m l r) []).2).1
        have hplug := length_plug
          (graft maxbits p test.addr (differBit p.addr test.addr (min n.bit p.bitlen)) next
            (climb (differBit p.addr test.addr (min n.bit p.bitlen))
              (descend maxbits p (.node m l r) []).1 (descend maxbits p (.node m l r) []).2).1).1
          (climb (differBit p.addr test.addr (min n.bit p.bitlen))
            (descend maxbits p (.node m l r) []).1 (descend maxbits p (.node m l r) []).2).1
          (climb (differBit p.addr test.addr (min n.bit p.bitlen))
            (descend maxbits p (.node m l r) []).1 (descend maxbits p (.node m l r) []).2).2
        rw [plug_climb, hback] at hplug
        obtain hlost | ⟨hnext, hone⟩ := hlost
        · omega
        · have := hnew hnext
          omega
      · intro hnil
        cases hnil
    · intro hnil
      cases hnil

-- ============================================================================
-- The longest prefix
-- ============================================================================

/-- Below a node that is on the stack, bits are larger: the stack is sorted. -/
theorem bestStack_sorted {maxbits : Nat} (p : Pfx) {t : Tree β} (h : t.Wf maxbits) :
    ∀ {stack : List (Node β)}, stack.Pairwise (fun a b => b.bit < a.bit) →
      (∀ a ∈ stack, ∀ m ∈ t.nodes, a.bit < m.bit) →
      (bestStack p t stack).Pairwise (fun a b => b.bit < a.bit) := by
  induction t with
  | nil => exact fun hs _ => hs
  | node n l r ihl ihr =>
    intro stack hs hbelow
    obtain ⟨hok, hl, hr⟩ := h
    have hpush : (if n.key.isSome then n :: stack else stack).Pairwise (fun a b => b.bit < a.bit) := by
      split
      · refine List.pairwise_cons.mpr ⟨fun a ha => ?_, hs⟩
        exact hbelow a ha n (Tree.mem_nodes.mpr (Or.inl rfl))
      · exact hs
    have hcover : ∀ a ∈ (if n.key.isSome then n :: stack else stack), a.bit ≤ n.bit := by
      intro a ha
      split at ha
      · obtain rfl | ha := List.mem_cons.mp ha
        · exact Nat.le_refl _
        · exact Nat.le_of_lt (hbelow a ha n (Tree.mem_nodes.mpr (Or.inl rfl)))
      · exact Nat.le_of_lt (hbelow a ha n (Tree.mem_nodes.mpr (Or.inl rfl)))
    rw [bestStack]
    split
    · split
      · exact ihr hr hpush fun a ha m hm => Nat.lt_of_le_of_lt (hcover a ha) (hok.right m hm).1
      · exact ihl hl hpush fun a ha m hm => Nat.lt_of_le_of_lt (hcover a ha) (hok.left m hm).1
    · exact hpush

/-- The first element with a property in a list that goes down is the highest. -/
theorem find?_highest {α : Type} {f : α → Nat} {P : α → Bool} {l : List α}
    (hl : l.Pairwise fun a b => f b < f a) {a b : α} (ha : l.find? P = some a) (hb : b ∈ l)
    (hP : P b = true) : f b ≤ f a := by
  induction l with
  | nil => cases hb
  | cons c l ih =>
    obtain ⟨hc, hl⟩ := List.pairwise_cons.mp hl
    rw [List.find?_cons] at ha
    split at ha
    · obtain rfl := Option.some.inj ha
      obtain rfl | hb := List.mem_cons.mp hb
      · exact Nat.le_refl _
      · exact Nat.le_of_lt (hc b hb)
    · rename_i hnot
      obtain rfl | hb := List.mem_cons.mp hb
      · rw [hP] at hnot
        cases hnot
      · exact ih hl ha hb

/-- No stored prefix that is not longer than what is asked for and covers it is longer than
    the one that is found. -/
theorem searchBest_longest {maxbits : Nat} {t : Tree β} (hwf : t.Wf maxbits) {p : Pfx} {m : Node β}
    (h : searchBest t p = some m) {e : Node β} (he : e ∈ t.nodes) {q : Pfx} (hq : e.key = some q)
    (hlen : q.bitlen ≤ p.bitlen) (hagree : Agree q.bitlen q.addr p.addr) : q.bitlen ≤ m.bit := by
  have hsorted := bestStack_sorted p hwf List.Pairwise.nil (nofun)
  rw [hwf.bit_of_key he hq]
  exact find?_highest hsorted h (mem_bestStack_of_covers hwf he hq hlen hagree [])
    (Node.covers_iff.mpr ⟨q, hq, hagree⟩)

-- ============================================================================
-- The table
-- ============================================================================

/-- A prefix of an IPv4 address without host bits. -/
def Pfx.IsV4 (p : Pfx) : Prop := p.bitlen ≤ 32 ∧ ∀ i, p.bitlen ≤ i → p.addr i = false

/-- `rb_patricia_tree_t` with `maxbits` fixed, and the prefixes that were inserted and not
    removed. -/
structure IpTable (β : Type) where
  head : Tree β
  next : Nat
  numActiveNode : Nat
  stored : Set Pfx

/-- A change of the table. -/
inductive IpOp
  | insert (p : Pfx)
  | remove (loc : Nat)

/-- `make_and_lookup_ip` of a prefix, and `rb_patricia_remove` of a node that holds one. -/
def IpTable.step (maxbits : Nat) (s : IpTable β) : IpOp → Option (IpTable β)
  | .insert p => (lookup maxbits p s.next s.head).map fun x =>
      ⟨x.1, s.next + 2, s.numActiveNode + lookupNew maxbits p s.head, insert p s.stored⟩
  | .remove loc => (s.head.deref loc).bind fun n => n.key.map fun p =>
      ⟨remove loc s.head, s.next, s.numActiveNode - removeFreed loc s.head, s.stored \ {p}⟩

/-- Only IPv4 prefixes without host bits are inserted. -/
def V4Only (_ : IpTable β) : IpOp → Prop
  | .insert p => p.IsV4
  | .remove _ => True

/-- `rb_new_patricia`. -/
def IpTable.new : IpTable β := ⟨.nil, 0, 0, ∅⟩

/-- Every node without a prefix has two children. -/
def Tree.GlueFull : Tree β → Prop
  | .nil => True
  | .node n l r => (n.key = none → l.isNil = false ∧ r.isNil = false) ∧ l.GlueFull ∧ r.GlueFull

omit [Inhabited β] in
/-- Without host bits a prefix is what it covers. -/
theorem Pfx.IsV4.ext {p q : Pfx} (hp : p.IsV4) (hq : q.IsV4) (hlen : p.bitlen = q.bitlen)
    (hagree : Agree q.bitlen p.addr q.addr) : p = q := by
  cases p with
  | mk m a =>
    cases q with
    | mk n b =>
      dsimp only at hlen hagree
      subst hlen
      congr 1
      funext i
      by_cases hi : i < m
      · exact hagree i hi
      · have ha : a i = false := hp.2 i (Nat.le_of_not_lt hi)
        have hb : b i = false := hq.2 i (Nat.le_of_not_lt hi)
        rw [ha, hb]

theorem Tree.Wf.glueFull {maxbits : Nat} {t : Tree β} (h : t.Wf maxbits) : t.GlueFull := by
  induction t with
  | nil => trivial
  | node n l r ihl ihr => exact ⟨fun hk => (h.1.glue hk).2, ihl h.2.1, ihr h.2.2⟩

/-- The table holds what is stored. -/
structure IpTable.Inv (maxbits : Nat) (s : IpTable β) : Prop where
  sound : s.head.Sound maxbits s.next
  v4 : ∀ p ∈ s.stored, p.IsV4
  key : ∀ m ∈ s.head.nodes, ∀ p, m.key = some p → p ∈ s.stored
  node : ∀ p ∈ s.stored, ∃ m ∈ s.head.nodes, m.key = some p
  count : s.numActiveNode = s.head.nodes.length

theorem IpTable.inv_new (maxbits : Nat) : (IpTable.new : IpTable β).Inv maxbits :=
  ⟨Tree.sound_nil, nofun, nofun, nofun, rfl⟩

section Step

variable {maxbits : Nat} {s : IpTable β} {p : Pfx}

/-- Two nodes with stored prefixes that are the same are one. -/
theorem IpTable.Inv.unique (h : s.Inv maxbits) {m n : Node β} (hm : m ∈ s.head.nodes)
    (hn : n ∈ s.head.nodes) (hmp : m.key = some p) (hnp : n.key = some p) : m = n :=
  h.sound.wf.holds_unique hm hn ⟨p, hmp, rfl, fun _ _ => rfl⟩ ⟨p, hnp, rfl, fun _ _ => rfl⟩

theorem IpTable.Inv.insert (h : s.Inv maxbits) (hp : p.IsV4) (hbits : 32 ≤ maxbits) :
    ∃ t, s.step maxbits (.insert p) = some t ∧ t.Inv maxbits := by
  have hlen := Nat.le_trans hp.1 hbits
  obtain ⟨x, hx, hsound, ⟨e, he, -, hholds, hold⟩, hkept, -⟩ := h.sound.lookup hlen
  refine ⟨_, by rw [IpTable.step, hx]; rfl, hsound, ?_, ?_, ?_, ?_⟩
  · rintro q (rfl | hq)
    · exact hp
    · exact h.v4 q hq
  · intro m hm q hq
    obtain hm | ⟨hme, hnew, -⟩ := hold m (Tree.mem_entries.mpr ⟨hm, by rw [hq]; rfl⟩)
    · exact Or.inr (h.key m (Tree.mem_entries.mp hm).1 q hq)
    · rw [hme, hnew] at hq
      exact Or.inl (Option.some.inj hq).symm
  · rintro q (rfl | hq)
    · obtain ⟨q', hq', hlen', hagree⟩ := hholds
      refine ⟨e, he, ?_⟩
      obtain hin | ⟨-, hnew, -⟩ := hold e (Tree.mem_entries.mpr ⟨he, by rw [hq']; rfl⟩)
      · have hv4 := h.v4 q' (h.key e (Tree.mem_entries.mp hin).1 q' hq')
        rw [hq', hv4.ext hp hlen' hagree]
      · rw [hnew]
        rfl
    · obtain ⟨m, hm, hq'⟩ := h.node q hq
      have hin := hkept m (Tree.mem_entries.mpr ⟨hm, by rw [hq']; rfl⟩)
      exact ⟨m, (Tree.mem_entries.mp hin).1, hq'⟩
  · dsimp only
    rw [h.count]
    exact (length_lookup h.sound hlen hx).symm

theorem IpTable.Inv.remove (h : s.Inv maxbits) {loc : Nat} {t : IpTable β}
    (hs : s.step maxbits (.remove loc) = some t) : t.Inv maxbits := by
  obtain ⟨e, he, hs⟩ := Option.bind_eq_some_iff.mp hs
  obtain ⟨p, hp, rfl⟩ := Option.map_eq_some_iff.mp hs
  have hmem : e ∈ s.head.nodes := List.mem_of_find?_eq_some he
  have hloc : e.loc = loc := by
    have := List.find?_some he
    exact beq_iff_eq.mp this
  subst hloc
  have hentry : e ∈ s.head.entries := Tree.mem_entries.mpr ⟨hmem, by rw [hp]; rfl⟩
  obtain ⟨hsound, hperm, -⟩ := h.sound.remove hentry
  have hnodup : s.head.entries.Nodup := (List.Nodup.of_map _ h.sound.nodup).filter _
  have hne := (List.nodup_cons.mp (hperm.nodup_iff.mp hnodup)).1
  refine ⟨hsound, fun q hq => h.v4 q hq.1, ?_, ?_, ?_⟩
  · intro m hm q hq
    have hm' : m ∈ (Patricia.remove e.loc s.head).entries :=
      Tree.mem_entries.mpr ⟨hm, by rw [hq]; rfl⟩
    have hin := (Tree.mem_entries.mp (hperm.mem_iff.mpr (List.mem_cons_of_mem e hm'))).1
    refine ⟨h.key m hin q hq, ?_⟩
    rintro rfl
    exact hne (h.unique hin hmem hq hp ▸ hm')
  · rintro q ⟨hq, hqp⟩
    obtain ⟨m, hm, hkey⟩ := h.node q hq
    obtain rfl | hin := List.mem_cons.mp (hperm.mem_iff.mp (Tree.mem_entries.mpr ⟨hm, by rw [hkey]; rfl⟩))
    · exact absurd (Option.some.inj (hkey.symm.trans hp)) hqp
    · exact ⟨m, (Tree.mem_entries.mp hin).1, hkey⟩
  · dsimp only
    rw [h.count, length_remove e.loc s.head]
    omega

theorem IpTable.Inv.step (h : s.Inv maxbits) (hbits : 32 ≤ maxbits) {a : IpOp} {t : IpTable β}
    (hok : V4Only s a) (hs : s.step maxbits a = some t) : t.Inv maxbits := by
  cases a with
  | insert p =>
    obtain ⟨t', ht', hinv⟩ := h.insert hok hbits
    exact Option.some.inj (ht'.symm.trans hs) ▸ hinv
  | remove loc => exact h.remove hs

/-- `rb_match_ip` finds the longest stored prefix that covers the address. -/
theorem IpTable.Inv.match_some (h : s.Inv maxbits) {addr : IpAddr} (hv4 : addr.v6 = false)
    {m : Node β} (hm : rbMatchIp s.head addr = some m) :
    ∃ p ∈ s.stored, m.key = some p ∧ Agree p.bitlen p.addr addr.bits ∧
      ∀ q ∈ s.stored, Agree q.bitlen q.addr addr.bits → q.bitlen ≤ p.bitlen := by
  obtain ⟨hentry, hcovers⟩ := searchBest_some hm
  obtain ⟨p, hp, hagree⟩ := Node.covers_iff.mp hcovers
  have hin := (Tree.mem_entries.mp hentry).1
  refine ⟨p, h.key m hin p hp, hp, hagree, ?_⟩
  intro q hq hqa
  obtain ⟨e, he, hkey⟩ := h.node q hq
  rw [h.sound.wf.bit_of_key hin hp]
  refine searchBest_longest h.sound.wf hm he hkey ?_ hqa
  show q.bitlen ≤ addr.width
  rw [IpAddr.width, hv4]
  exact (h.v4 q hq).1

theorem IpTable.Inv.match_none_iff (h : s.Inv maxbits) {addr : IpAddr} (hv4 : addr.v6 = false) :
    rbMatchIp s.head addr = none ↔ ∀ p ∈ s.stored, ¬ Agree p.bitlen p.addr addr.bits := by
  constructor
  · intro hnone p hp
    obtain ⟨e, he, hkey⟩ := h.node p hp
    refine searchBest_none h.sound.wf hnone he hkey ?_
    show p.bitlen ≤ addr.width
    rw [IpAddr.width, hv4]
    exact (h.v4 p hp).1
  · intro hno
    cases hm : rbMatchIp s.head addr with
    | none => rfl
    | some m =>
      obtain ⟨p, hp, -, hagree, -⟩ := h.match_some hv4 hm
      exact absurd hagree (hno p hp)

omit [Inhabited β] in
theorem rbMatchIpExact_v4 {addr : IpAddr} (hv4 : addr.v6 = false) {len : Nat} (hlen : len ≤ 32)
    {t : Tree β} : rbMatchIpExact t addr len = searchExact ⟨len, addr.bits⟩ t := by
  have hwidth : addr.width = 32 := by
    rw [IpAddr.width, hv4]
    rfl
  unfold rbMatchIpExact
  rw [hwidth, if_pos (by omega), Int.toNat_natCast]

/-- `rb_match_ip_exact` finds the node of a prefix iff the prefix is stored. -/
theorem IpTable.Inv.matchExact_iff (h : s.Inv maxbits) {addr : IpAddr} (hv4 : addr.v6 = false)
    {len : Nat} (hp : (⟨len, addr.bits⟩ : Pfx).IsV4) :
    (∃ m, rbMatchIpExact s.head addr len = some m ∧ m.key = some ⟨len, addr.bits⟩) ↔
      (⟨len, addr.bits⟩ : Pfx) ∈ s.stored := by
  rw [rbMatchIpExact_v4 hv4 hp.1]
  constructor
  · rintro ⟨m, hm, hkey⟩
    exact h.key m (searchExact_some h.sound.wf hm).1 _ hkey
  · intro hin
    obtain ⟨m, hm, hkey⟩ := h.node _ hin
    exact ⟨m, searchExact_of_holds h.sound.wf hm ⟨_, hkey, rfl, fun _ _ => rfl⟩, hkey⟩

theorem IpTable.Inv.matchExact_none (h : s.Inv maxbits) {addr : IpAddr} (hv4 : addr.v6 = false)
    {len : Nat} (hp : (⟨len, addr.bits⟩ : Pfx).IsV4) (hnot : (⟨len, addr.bits⟩ : Pfx) ∉ s.stored) :
    rbMatchIpExact s.head addr len = none := by
  rw [rbMatchIpExact_v4 hv4 hp.1]
  cases hm : searchExact ⟨len, addr.bits⟩ s.head with
  | none => rfl
  | some m =>
    obtain ⟨hin, q, hq, hlen, hagree⟩ := searchExact_some h.sound.wf hm
    have hstored := h.key m hin q hq
    exact absurd hstored fun hstored => hnot ((h.v4 q hstored).ext hp hlen hagree ▸ hstored)

end Step

/-- In every run of insertions and removals, an insertion succeeds, `rb_match_ip` finds the
    longest stored prefix that covers an address if there is one, `rb_match_ip_exact` finds
    the stored prefixes, glue has two children, and nodes are counted. -/
theorem longest_prefix_match {maxbits : Nat} (hbits : maxbits = 32 ∨ maxbits = 128) {s : IpTable β}
    (h : Reach (IpTable.step maxbits) V4Only IpTable.new s) :
    (∀ p : Pfx, p.IsV4 → ∃ t, s.step maxbits (.insert p) = some t) ∧
    (∀ addr : IpAddr, addr.v6 = false →
      (∀ m, rbMatchIp s.head addr = some m → ∃ p ∈ s.stored, m.key = some p ∧
        Agree p.bitlen p.addr addr.bits ∧
        ∀ q ∈ s.stored, Agree q.bitlen q.addr addr.bits → q.bitlen ≤ p.bitlen) ∧
      (rbMatchIp s.head addr = none ↔ ∀ p ∈ s.stored, ¬ Agree p.bitlen p.addr addr.bits)) ∧
    (∀ (addr : IpAddr) (len : Nat), addr.v6 = false → (⟨len, addr.bits⟩ : Pfx).IsV4 →
      ((⟨len, addr.bits⟩ : Pfx) ∈ s.stored →
        ∃ m, rbMatchIpExact s.head addr len = some m ∧ m.key = some ⟨len, addr.bits⟩) ∧
      ((⟨len, addr.bits⟩ : Pfx) ∉ s.stored → rbMatchIpExact s.head addr len = none)) ∧
    s.head.GlueFull ∧ s.numActiveNode = s.head.nodes.length := by
  have hle : 32 ≤ maxbits := by omega
  have hinv : s.Inv maxbits := by
    induction h with
    | init => exact IpTable.inv_new maxbits
    | next _ hok hs ih => exact ih.step hle hok hs
  refine ⟨?_, ?_, ?_, hinv.sound.wf.glueFull, hinv.count⟩
  · intro p hp
    obtain ⟨t, ht, -⟩ := hinv.insert hp hle
    exact ⟨t, ht⟩
  · exact fun addr hv4 => ⟨fun m hm => hinv.match_some hv4 hm, hinv.match_none_iff hv4⟩
  · intro addr len hv4 hp
    exact ⟨(hinv.matchExact_iff hv4 hp).mpr, hinv.matchExact_none hv4 hp⟩

/-- `10.0.0.0/8`, `10.1.0.0/16` and `11.0.0.0/8`, with the first removed again. -/
theorem longest_prefix_match_three :
    ∃ s : IpTable Unit, s.numActiveNode = 3 ∧
      (⟨16, fun i => decide (i = 4 ∨ i = 6 ∨ i = 15)⟩ : Pfx) ∈ s.stored ∧
      s.numActiveNode = s.head.nodes.length := by
  have hreach : Reach (IpTable.step 128) V4Only (IpTable.new : IpTable Unit)
      ([IpOp.insert ⟨8, fun i => decide (i = 4 ∨ i = 6)⟩,
        .insert ⟨16, fun i => decide (i = 4 ∨ i = 6 ∨ i = 15)⟩,
        .insert ⟨8, fun i => decide (i = 4 ∨ i = 6 ∨ i = 7)⟩,
        .remove 0].foldl (Reach.perform (IpTable.step 128)) IpTable.new) := by
    simp only [List.foldl_cons, List.foldl_nil]
    refine Reach.performed (Reach.performed (Reach.performed (Reach.performed .init ?_) ?_) ?_) ?_
    · refine ⟨by decide, fun i hi => decide_eq_false ?_⟩
      replace hi : 8 ≤ i := hi
      omega
    · refine ⟨by decide, fun i hi => decide_eq_false ?_⟩
      replace hi : 16 ≤ i := hi
      omega
    · refine ⟨by decide, fun i hi => decide_eq_false ?_⟩
      replace hi : 8 ≤ i := hi
      omega
    · trivial
  refine ⟨_, ?_, ?_, (longest_prefix_match (Or.inr rfl) hreach).2.2.2.2⟩
  · decide +kernel
  · refine ⟨Or.inr (Or.inl rfl), ?_⟩
    intro heq
    exact absurd (congrArg Pfx.bitlen heq) (by decide +kernel)

end Bluebox.Patricia
