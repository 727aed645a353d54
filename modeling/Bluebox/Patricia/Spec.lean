/-
  Bluebox.Patricia.Spec

  A Patricia tree as a finite map from prefixes to nodes.  In a well-formed tree
  the bits grow on the way down, the prefixes below a node agree on the bits
  before it and differ at its own bit, and glue has two children.  Lookup adds at
  most one prefix, removal takes one away, and the searches find what is there.

  Lookup comes back up along the path it went down.  In a well-formed tree this is
  the same as a second descent that stops at the first node whose bit is not
  before `differ_bit`, and that is what the induction is over.
-/
import Mathlib.Data.List.Perm.Basic
import Bluebox.Patricia.Basic

namespace Bluebox.Patricia

-- ============================================================================
-- Agreement of addresses
-- ============================================================================

/-- Two addresses have the same first bits. -/
def Agree (n : Nat) (a b : Nat → Bool) : Prop := ∀ i < n, a i = b i

theorem Agree.mono {m n : Nat} {a b : Nat → Bool} (h : Agree n a b) (hmn : m ≤ n) : Agree m a b :=
  fun i hi => h i (Nat.lt_of_lt_of_le hi hmn)

theorem Agree.symm {n : Nat} {a b : Nat → Bool} (h : Agree n a b) : Agree n b a :=
  fun i hi => (h i hi).symm

theorem Agree.trans {n : Nat} {a b c : Nat → Bool} (h : Agree n a b) (h' : Agree n b c) :
    Agree n a c := fun i hi => (h i hi).trans (h' i hi)

theorem compWithMask_iff {a b : Nat → Bool} {mask : Nat} :
    compWithMask a b mask = true ↔ Agree mask a b := by
  unfold compWithMask Agree
  rw [List.all_eq_true]
  constructor
  · intro h i hi
    exact eq_of_beq (h i (List.mem_range.mpr hi))
  · intro h i hi
    exact beq_of_eq (h i (List.mem_range.mp hi))

theorem differBit_spec (a b : Nat → Bool) (checkBit : Nat) :
    differBit a b checkBit ≤ checkBit ∧ Agree (differBit a b checkBit) a b ∧
      (differBit a b checkBit < checkBit →
        a (differBit a b checkBit) ≠ b (differBit a b checkBit)) := by
  unfold differBit
  cases hf : (List.range checkBit).find? fun i => a i != b i with
  | none =>
    refine ⟨Nat.le_refl _, ?_, fun hlt => absurd hlt (Nat.lt_irrefl _)⟩
    intro i hi
    have hi' := List.find?_eq_none.mp hf i (List.mem_range.mpr hi)
    simpa using hi'
  | some d =>
    obtain ⟨hd, hlt, hbefore⟩ := List.find?_range_eq_some.mp hf
    refine ⟨Nat.le_of_lt (List.mem_range.mp hlt), ?_, fun _ => by simpa using hd⟩
    intro i hi
    simpa using hbefore i hi

theorem side_of_lt {maxbits bit : Nat} {addr : Nat → Bool} (h : bit < maxbits) :
    side maxbits addr bit = addr bit := by
  unfold side
  rw [decide_eq_true h, Bool.true_and]

-- ============================================================================
-- Nodes and entries
-- ============================================================================

section Nodes

variable {β : Type} {n m : Node β} {l r t : Tree β}

theorem Tree.mem_nodes : m ∈ (Tree.node n l r).nodes ↔ m = n ∨ m ∈ l.nodes ∨ m ∈ r.nodes := by
  rw [Tree.nodes, List.mem_cons, List.mem_append]

theorem Tree.mem_entries : m ∈ t.entries ↔ m ∈ t.nodes ∧ m.key.isSome = true := by
  unfold Tree.entries
  rw [List.mem_filter]

theorem Tree.entries_of_key (h : n.key.isSome = true) :
    (Tree.node n l r).entries = n :: (l.entries ++ r.entries) := by
  unfold Tree.entries
  rw [Tree.nodes]
  simp [h]

theorem Tree.entries_of_glue (h : n.key = none) :
    (Tree.node n l r).entries = l.entries ++ r.entries := by
  unfold Tree.entries
  rw [Tree.nodes]
  simp [h]

/-- The prefix of a node is this one. -/
def Node.Holds (n : Node β) (p : Pfx) : Prop :=
  ∃ q, n.key = some q ∧ q.bitlen = p.bitlen ∧ Agree p.bitlen q.addr p.addr

theorem descend_path {maxbits : Nat} (p : Pfx) (t : Tree β) (path : List (Crumb β)) :
    descend maxbits p t path = ((descend maxbits p t []).1, (descend maxbits p t []).2 ++ path) := by
  induction t generalizing path with
  | nil => rfl
  | node n l r ihl ihr =>
    unfold descend
    by_cases hgo : n.bit < p.bitlen ∨ n.key.isNone = true
    · rw [if_pos hgo, if_pos hgo]
      by_cases hside : side maxbits p.addr n.bit = true
      · rw [if_pos hside, if_pos hside]
        by_cases hnil : r.isNil = true
        · rw [if_pos hnil, if_pos hnil]
          rfl
        · rw [if_neg hnil, if_neg hnil, ihr, ihr [⟨n, true, l⟩]]
          simp
      · rw [if_neg hside, if_neg hside]
        by_cases hnil : l.isNil = true
        · rw [if_pos hnil, if_pos hnil]
          rfl
        · rw [if_neg hnil, if_neg hnil, ihl, ihl [⟨n, false, r⟩]]
          simp
    · rw [if_neg hgo, if_neg hgo]
      rfl

end Nodes

variable {β : Type} [Inhabited β] {maxbits : Nat}

-- ============================================================================
-- Well-formed trees
-- ============================================================================

/-- What holds at a node with its two children. -/
structure NodeOk (maxbits : Nat) (n : Node β) (l r : Tree β) : Prop where
  own : ∀ p, n.key = some p → p.bitlen = n.bit
  glue : n.key = none → n.data = default ∧ l.isNil = false ∧ r.isNil = false
  bound : n.bit ≤ maxbits
  left : ∀ m ∈ l.nodes, n.bit < m.bit ∧ ∀ p, m.key = some p → p.addr n.bit = false
  right : ∀ m ∈ r.nodes, n.bit < m.bit ∧ ∀ p, m.key = some p → p.addr n.bit = true
  agree : ∀ m ∈ (Tree.node n l r).nodes, ∀ p, m.key = some p →
    ∀ m' ∈ (Tree.node n l r).nodes, ∀ q, m'.key = some q → Agree n.bit p.addr q.addr

def Tree.Wf (maxbits : Nat) : Tree β → Prop
  | .nil => True
  | .node n l r => NodeOk maxbits n l r ∧ l.Wf maxbits ∧ r.Wf maxbits

theorem Tree.Wf.bit_of_key {t : Tree β} (h : t.Wf maxbits) {m : Node β} (hm : m ∈ t.nodes) {p : Pfx}
    (hp : m.key = some p) : p.bitlen = m.bit := by
  induction t with
  | nil => cases hm
  | node n l r ihl ihr =>
    obtain ⟨hok, hl, hr⟩ := h
    obtain rfl | hm | hm := Tree.mem_nodes.mp hm
    · exact hok.own p hp
    · exact ihl hl hm
    · exact ihr hr hm

theorem Tree.Wf.bit_le {t : Tree β} (h : t.Wf maxbits) {m : Node β} (hm : m ∈ t.nodes) :
    m.bit ≤ maxbits := by
  induction t with
  | nil => cases hm
  | node n l r ihl ihr =>
    obtain ⟨hok, hl, hr⟩ := h
    obtain rfl | hm | hm := Tree.mem_nodes.mp hm
    · exact hok.bound
    · exact ihl hl hm
    · exact ihr hr hm

/-- A prefix stands at one node only. -/
theorem Tree.Wf.holds_unique {t : Tree β} (h : t.Wf maxbits) {p : Pfx} {m m' : Node β}
    (hm : m ∈ t.nodes) (hm' : m' ∈ t.nodes) (hp : m.Holds p) (hp' : m'.Holds p) : m = m' := by
  have hbit : m.bit = m'.bit := by
    obtain ⟨q, hq, hlen, -⟩ := hp
    obtain ⟨q', hq', hlen', -⟩ := hp'
    rw [← h.bit_of_key hm hq, ← h.bit_of_key hm' hq', hlen, hlen']
  induction t with
  | nil => cases hm
  | node n l r ihl ihr =>
    obtain ⟨hok, hl, hr⟩ := h
    -- left of a node and right of it a prefix has different bits there
    have hcross : ∀ {x y : Node β}, x ∈ l.nodes → y ∈ r.nodes → x.Holds p → y.Holds p →
        False := by
      intro x y hx hy hxp hyp
      obtain ⟨q, hq, hlen, hagree⟩ := hxp
      obtain ⟨q', hq', hlen', hagree'⟩ := hyp
      have hlt : n.bit < p.bitlen := by
        rw [← hlen, hl.bit_of_key hx hq]
        exact (hok.left x hx).1
      have h0 := (hok.left x hx).2 q hq
      have h1 := (hok.right y hy).2 q' hq'
      rw [hagree n.bit hlt, ← hagree' n.bit hlt, h1] at h0
      cases h0
    obtain hn | hin | hin := Tree.mem_nodes.mp hm
    · obtain hn' | hin' | hin' := Tree.mem_nodes.mp hm'
      · rw [hn, hn']
      · rw [hn] at hbit
        exact absurd hbit (Nat.ne_of_lt (hok.left m' hin').1)
      · rw [hn] at hbit
        exact absurd hbit (Nat.ne_of_lt (hok.right m' hin').1)
    · obtain hn' | hin' | hin' := Tree.mem_nodes.mp hm'
      · rw [hn'] at hbit
        exact absurd hbit.symm (Nat.ne_of_lt (hok.left m hin).1)
      · exact ihl hl hin hin'
      · exact (hcross hin hin' hp hp').elim
    · obtain hn' | hin' | hin' := Tree.mem_nodes.mp hm'
      · rw [hn'] at hbit
        exact absurd hbit.symm (Nat.ne_of_lt (hok.right m hin).1)
      · exact (hcross hin' hin hp' hp).elim
      · exact ihr hr hin hin'

-- ============================================================================
-- The way down
-- ============================================================================

/-- What a descent from a node does: it stops there, with a prefix, or goes on
    into the child on the side of the address. -/
theorem descend_cases {p : Pfx} {n : Node β} {l r : Tree β} (h : (Tree.node n l r).Wf maxbits) :
    (descend maxbits p (.node n l r) [] = (.node n l r, []) ∧ (∃ test, n.key = some test) ∧
      (n.bit < p.bitlen → (if side maxbits p.addr n.bit then r else l).isNil = true)) ∨
    (side maxbits p.addr n.bit = true ∧ r.isNil = false ∧ descend maxbits p (.node n l r) [] =
      ((descend maxbits p r []).1, (descend maxbits p r []).2 ++ [⟨n, true, l⟩])) ∨
    (side maxbits p.addr n.bit = false ∧ l.isNil = false ∧ descend maxbits p (.node n l r) [] =
      ((descend maxbits p l []).1, (descend maxbits p l []).2 ++ [⟨n, false, r⟩])) := by
  have hkey : ∀ {t : Tree β}, (n.key = none → t.isNil = false) → t.isNil = true →
      ∃ test, n.key = some test := by
    intro t hglue hnil
    cases hk : n.key with
    | none =>
      rw [hglue hk] at hnil
      cases hnil
    | some test => exact ⟨test, rfl⟩
  rw [descend]
  by_cases hgo : n.bit < p.bitlen ∨ n.key.isNone = true
  · rw [if_pos hgo]
    by_cases hside : side maxbits p.addr n.bit = true
    · rw [if_pos hside]
      by_cases hnil : r.isNil = true
      · rw [if_pos hnil, if_pos hside]
        exact Or.inl ⟨rfl, hkey (fun hk => (h.1.glue hk).2.2) hnil, fun _ => hnil⟩
      · rw [if_neg hnil, descend_path]
        exact Or.inr (Or.inl ⟨hside, Bool.eq_false_iff.mpr hnil, rfl⟩)
    · rw [if_neg hside]
      by_cases hnil : l.isNil = true
      · rw [if_pos hnil, if_neg hside]
        exact Or.inl ⟨rfl, hkey (fun hk => (h.1.glue hk).2.1) hnil, fun _ => hnil⟩
      · rw [if_neg hnil, descend_path]
        exact Or.inr (Or.inr ⟨Bool.eq_false_iff.mpr hside, Bool.eq_false_iff.mpr hnil, rfl⟩)
  · rw [if_neg hgo]
    rw [not_or] at hgo
    refine Or.inl ⟨rfl, ?_, fun hlt => absurd hlt hgo.1⟩
    cases hk : n.key with
    | none =>
      rw [hk] at hgo
      exact absurd rfl hgo.2
    | some test => exact ⟨test, rfl⟩

/-- The node where a descent stops, with its prefix. -/
theorem descend_stop {p : Pfx} {t : Tree β} (h : t.Wf maxbits) (hnil : t.isNil = false) :
    ∃ n l r test, (descend maxbits p t []).1 = .node n l r ∧ n.key = some test ∧ n ∈ t.nodes := by
  induction t with
  | nil => cases hnil
  | node m l r ihl ihr =>
    obtain ⟨hd, ⟨test, htest⟩, -⟩ | ⟨-, hr, hd⟩ | ⟨-, hl, hd⟩ := descend_cases (p := p) h
    · rw [hd]
      exact ⟨m, l, r, test, rfl, htest, Tree.mem_nodes.mpr (Or.inl rfl)⟩
    · rw [hd]
      obtain ⟨n, l', r', test, hstop, htest, hin⟩ := ihr h.2.2 hr
      exact ⟨n, l', r', test, hstop, htest, Tree.mem_nodes.mpr (Or.inr (Or.inr hin))⟩
    · rw [hd]
      obtain ⟨n, l', r', test, hstop, htest, hin⟩ := ihl h.2.1 hl
      exact ⟨n, l', r', test, hstop, htest, Tree.mem_nodes.mpr (Or.inr (Or.inl hin))⟩

-- ============================================================================
-- The way up
-- ============================================================================

/-- The same change by a descent that stops at the first node whose bit is not
    before `differ`. -/
def along (maxbits : Nat) (p : Pfx) (differ : Nat) (g : Tree β → Tree β × Nat) :
    Tree β → Tree β × Nat
  | .nil => g .nil
  | .node n l r =>
    if n.bit < differ then
      if side maxbits p.addr n.bit then
        (.node n l (along maxbits p differ g r).1, (along maxbits p differ g r).2)
      else (.node n (along maxbits p differ g l).1 r, (along maxbits p differ g l).2)
    else g (.node n l r)

omit [Inhabited β] in
theorem plug_append (t : Tree β) (path path' : List (Crumb β)) :
    plug t (path ++ path') = plug (plug t path) path' := by
  induction path generalizing t with
  | nil => rfl
  | cons c path ih => exact ih _

omit [Inhabited β] in
/-- A parent before `differ` is never passed. -/
theorem climb_append {differ : Nat} {c : Crumb β} (hc : c.n.bit < differ) (t : Tree β)
    (path : List (Crumb β)) :
    climb differ t (path ++ [c]) = ((climb differ t path).1, (climb differ t path).2 ++ [c]) := by
  induction path generalizing t with
  | nil =>
    have hstay : climb differ t [c] = (t, [c]) := if_neg (Nat.not_le.mpr hc)
    rw [List.nil_append, hstay]
    rfl
  | cons c' path ih =>
    rw [List.cons_append, climb, climb]
    by_cases hge : c'.n.bit ≥ differ
    · rw [if_pos hge, if_pos hge]
      exact ih _
    · rw [if_neg hge, if_neg hge]
      rfl

omit [Inhabited β] in
/-- When no parent is before `differ`, the loop ends at the head. -/
theorem climb_all {differ : Nat} {path : List (Crumb β)} (h : ∀ c ∈ path, differ ≤ c.n.bit)
    (t : Tree β) : climb differ t path = (plug t path, []) := by
  induction path generalizing t with
  | nil => rfl
  | cons c path ih =>
    rw [climb, if_pos (h c List.mem_cons_self)]
    exact ih (fun c' hc' => h c' (List.mem_cons_of_mem c hc')) _

/-- A path consists of nodes of the tree, and leads back to it. -/
theorem descend_back {p : Pfx} {t : Tree β} (h : t.Wf maxbits) :
    plug (descend maxbits p t []).1 (descend maxbits p t []).2 = t ∧
      ∀ c ∈ (descend maxbits p t []).2, c.n ∈ t.nodes := by
  induction t with
  | nil => exact ⟨rfl, nofun⟩
  | node n l r ihl ihr =>
    obtain ⟨hd, -⟩ | ⟨-, -, hd⟩ | ⟨-, -, hd⟩ := descend_cases (p := p) h
    · rw [hd]
      exact ⟨rfl, nofun⟩
    · obtain ⟨hplug, hpath⟩ := ihr h.2.2
      rw [hd]
      refine ⟨?_, ?_⟩
      · rw [plug_append, hplug]
        rfl
      · intro c hc
        rw [List.mem_append, List.mem_singleton] at hc
        obtain hc | rfl := hc
        · exact Tree.mem_nodes.mpr (Or.inr (Or.inr (hpath c hc)))
        · exact Tree.mem_nodes.mpr (Or.inl rfl)
    · obtain ⟨hplug, hpath⟩ := ihl h.2.1
      rw [hd]
      refine ⟨?_, ?_⟩
      · rw [plug_append, hplug]
        rfl
      · intro c hc
        rw [List.mem_append, List.mem_singleton] at hc
        obtain hc | rfl := hc
        · exact Tree.mem_nodes.mpr (Or.inr (Or.inl (hpath c hc)))
        · exact Tree.mem_nodes.mpr (Or.inl rfl)

/-- No node of a tree comes before its head. -/
theorem NodeOk.head_le {n : Node β} {l r : Tree β} (h : NodeOk maxbits n l r) {m : Node β}
    (hm : m ∈ (Tree.node n l r).nodes) : n.bit ≤ m.bit := by
  obtain rfl | hm | hm := Tree.mem_nodes.mp hm
  · exact Nat.le_refl _
  · exact Nat.le_of_lt (h.left m hm).1
  · exact Nat.le_of_lt (h.right m hm).1

/-- Down, up and a change there, in one descent. -/
theorem climb_along {p : Pfx} {t : Tree β} (h : t.Wf maxbits) (hnil : t.isNil = false)
    {differ : Nat} {n : Node β} {l' r' : Tree β}
    (hstop : (descend maxbits p t []).1 = .node n l' r') (hdiffer : differ ≤ n.bit)
    (g : Tree β → Tree β × Nat) :
    (plug (g (climb differ (descend maxbits p t []).1 (descend maxbits p t []).2).1).1
        (climb differ (descend maxbits p t []).1 (descend maxbits p t []).2).2,
      (g (climb differ (descend maxbits p t []).1 (descend maxbits p t []).2).1).2) =
      along maxbits p differ g t := by
  induction t with
  | nil => cases hnil
  | node m l r ihl ihr =>
    -- a head that is not before `differ` is where both end
    have htop : ¬ m.bit < differ →
        climb differ (descend maxbits p (.node m l r) []).1 (descend maxbits p (.node m l r) []).2 =
          (.node m l r, []) := by
      intro hge
      obtain ⟨hplug, hpath⟩ := descend_back (p := p) h
      rw [climb_all, hplug]
      intro c hc
      exact Nat.le_trans (Nat.le_of_not_lt hge) (h.1.head_le (hpath c hc))
    rw [along]
    by_cases hlt : m.bit < differ
    · rw [if_pos hlt]
      obtain ⟨hd, -⟩ | ⟨hside, hr, hd⟩ | ⟨hside, hl, hd⟩ := descend_cases (p := p) h
      · rw [hd] at hstop
        obtain ⟨rfl, -, -⟩ := Tree.node.inj hstop
        exact absurd hdiffer (Nat.not_le.mpr hlt)
      · rw [hd] at hstop ⊢
        have ih := ihr h.2.2 hr hstop
        rw [if_pos hside, climb_append hlt]
        dsimp only
        rw [plug_append, ← ih]
        rfl
      · rw [hd] at hstop ⊢
        have ih := ihl h.2.1 hl hstop
        rw [if_neg (Bool.eq_false_iff.mp hside), climb_append hlt]
        dsimp only
        rw [plug_append, ← ih]
        rfl
    · rw [if_neg hlt, htop hlt]
      rfl

-- ============================================================================
-- Lookup
-- ============================================================================

/-- A subtree after a lookup: it is as before and has the prefix, or it has one
    entry more. -/
structure Grown (maxbits : Nat) (p : Pfx) (next differ : Nat) (t : Tree β) (x : Tree β × Nat) :
    Prop where
  wf : x.1.Wf maxbits
  nodes : ∀ m ∈ x.1.nodes, m ∈ t.nodes ∨ (m.key = some p ∧ m.bit = p.bitlen) ∨
    (m.key = none ∧ m.bit = differ)
  notNil : x.1.isNil = false
  locs : ∃ fresh : List Nat, fresh.Sublist [next, next + 1] ∧
    (x.1.nodes.map Node.loc).Perm (fresh ++ t.nodes.map Node.loc)
  entries : (x.1 = t ∧ ∃ m ∈ t.nodes, m.loc = x.2 ∧ m.Holds p) ∨
    x.1.entries.Perm (newNode x.2 p :: t.entries)

section Lookup

variable {p : Pfx} {next differ : Nat} {n : Node β} {l r : Tree β}

omit [Inhabited β] in
theorem Tree.eq_nil_of_isNil {t : Tree β} (h : t.isNil = true) : t = .nil := by
  cases t with
  | nil => rfl
  | node n l r => cases h

omit [Inhabited β] in
/-- A node and its children, whatever the side. -/
theorem Crumb.nodes_fill (c : Crumb β) (t : Tree β) :
    (c.fill t).nodes.Perm (c.n :: (t.nodes ++ c.other.nodes)) := by
  unfold Crumb.fill
  split
  · rw [Tree.nodes]
    exact List.Perm.cons _ List.perm_append_comm
  · rw [Tree.nodes]

omit [Inhabited β] in
theorem Crumb.entries_fill (c : Crumb β) (t : Tree β) : (c.fill t).entries.Perm
    (t.entries ++ ([c.n].filter (fun m => m.key.isSome) ++ c.other.entries)) := by
  unfold Tree.entries
  refine ((c.nodes_fill t).filter _).trans ?_
  rw [← List.filter_append, ← List.filter_append]
  exact List.Perm.filter _ List.perm_middle.symm

omit [Inhabited β] in
theorem Crumb.mem_fill {c : Crumb β} {t : Tree β} {m : Node β} :
    m ∈ (c.fill t).nodes ↔ m = c.n ∨ m ∈ t.nodes ∨ m ∈ c.other.nodes := by
  rw [(c.nodes_fill t).mem_iff, List.mem_cons, List.mem_append]

omit [Inhabited β] in
theorem Crumb.isNil_fill (c : Crumb β) (t : Tree β) : (c.fill t).isNil = false := by
  unfold Crumb.fill
  split
  · rfl
  · rfl

/-- What holds at a node, by the side of the path and the other one.  The prefixes
    below agree with a given one. -/
structure Crumb.Ok (maxbits : Nat) (p : Pfx) (c : Crumb β) (t : Tree β) : Prop where
  own : ∀ q, c.n.key = some q → q.bitlen = c.n.bit
  glue : c.n.key = none → c.n.data = default ∧ t.isNil = false ∧ c.other.isNil = false
  bound : c.n.bit ≤ maxbits
  inside : ∀ m ∈ t.nodes, c.n.bit < m.bit ∧ ∀ q, m.key = some q → q.addr c.n.bit = c.right
  outside : ∀ m ∈ c.other.nodes,
    c.n.bit < m.bit ∧ ∀ q, m.key = some q → q.addr c.n.bit = !c.right
  agree : ∀ m ∈ (c.fill t).nodes, ∀ q, m.key = some q → Agree c.n.bit p.addr q.addr

theorem Crumb.Ok.wf {c : Crumb β} {t : Tree β} (h : c.Ok maxbits p t) (ht : t.Wf maxbits)
    (hother : c.other.Wf maxbits) : (c.fill t).Wf maxbits := by
  obtain ⟨n, right, other⟩ := c
  have hagree := h.agree
  have hsame : ∀ m ∈ (Crumb.fill ⟨n, right, other⟩ t).nodes, ∀ q, m.key = some q →
      ∀ m' ∈ (Crumb.fill ⟨n, right, other⟩ t).nodes, ∀ q', m'.key = some q' →
        Agree n.bit q.addr q'.addr :=
    fun m hm q hq m' hm' q' hq' => (hagree m hm q hq).symm.trans (hagree m' hm' q' hq')
  cases right with
  | true => exact ⟨⟨h.own, fun hk => ⟨(h.glue hk).1, (h.glue hk).2.2, (h.glue hk).2.1⟩, h.bound,
      h.outside, h.inside, hsame⟩, hother, ht⟩
  | false => exact ⟨⟨h.own, h.glue, h.bound, h.inside, h.outside, hsame⟩, ht, hother⟩

/-- A new leaf. -/
theorem leaf_wf (hlen : p.bitlen ≤ maxbits) :
    (Tree.node (newNode next p : Node β) .nil .nil).Wf maxbits := by
  refine ⟨⟨?_, nofun, hlen, nofun, nofun, ?_⟩, trivial, trivial⟩
  · intro q hq
    rw [← Option.some.inj hq]
    rfl
  · intro m hm q hq m' hm' q' hq'
    obtain rfl := List.mem_singleton.mp hm
    obtain rfl := List.mem_singleton.mp hm'
    rw [← Option.some.inj hq, ← Option.some.inj hq']
    exact fun i _ => rfl

/-- What is known at the node where the change is made. -/
structure GraftAt (maxbits : Nat) (p test : Pfx) (differ : Nat) (n : Node β) (l r : Tree β) :
    Prop where
  wf : (Tree.node n l r).Wf maxbits
  len : p.bitlen ≤ maxbits
  le : differ ≤ p.bitlen
  stop : differ ≤ n.bit
  mem : ∃ m ∈ (Tree.node n l r).nodes, m.key = some test
  agree : Agree differ p.addr test.addr
  differs : differ < p.bitlen → differ < n.bit → p.addr differ ≠ test.addr differ
  free : n.bit = differ → differ < p.bitlen → (if p.addr n.bit then r else l).isNil = true

variable {test : Pfx}

/-- The new prefix agrees with those of the subtree as far as with the one the
    descent found. -/
theorem GraftAt.agree_all (h : GraftAt maxbits p test differ n l r) :
    ∀ m ∈ (Tree.node n l r).nodes, ∀ q, m.key = some q → Agree differ p.addr q.addr := by
  intro m hm q hq
  obtain ⟨m', hm', htest⟩ := h.mem
  exact h.agree.trans ((h.wf.1.agree m' hm' test htest m hm q hq).mono h.stop)

/-- The prefixes of the subtree have the bit at `differ` of the one found. -/
theorem GraftAt.bit_all (h : GraftAt maxbits p test differ n l r) (hlt : differ < n.bit) :
    ∀ m ∈ (Tree.node n l r).nodes, ∀ q, m.key = some q → q.addr differ = test.addr differ := by
  intro m hm q hq
  obtain ⟨m', hm', htest⟩ := h.mem
  exact h.wf.1.agree m hm q hq m' hm' test htest differ hlt

/-- The prefix belongs to the node itself. -/
theorem GraftAt.here (h : GraftAt maxbits p test differ n l r) (next : Nat)
    (hdiffer : differ = p.bitlen) (hbit : n.bit = p.bitlen) :
    Grown maxbits p next differ (.node n l r)
      (if n.key.isSome then (.node n l r, n.loc) else (.node { n with key := some p } l r, n.loc)) := by
  have hagree := h.agree_all
  rw [hdiffer] at hagree
  cases hk : n.key with
  | some q =>
    rw [if_pos Option.isSome_some]
    have hq := h.wf.1.own q hk
    refine ⟨h.wf, fun m hm => Or.inl hm, rfl, ⟨[], List.nil_sublist _, List.Perm.refl _⟩,
      Or.inl ⟨rfl, n, Tree.mem_nodes.mpr (Or.inl rfl), rfl, q, hk, hq.trans hbit, ?_⟩⟩
    exact (hagree n (Tree.mem_nodes.mpr (Or.inl rfl)) q hk).symm
  | none =>
    rw [if_neg nofun]
    have hnew : ({ n with key := some p } : Node β) = newNode n.loc p := by
      unfold newNode
      rw [hbit, (h.wf.1.glue hk).1]
    have hall : ∀ m ∈ (Tree.node { n with key := some p } l r).nodes, ∀ q, m.key = some q →
        Agree n.bit p.addr q.addr := by
      intro m hm q hq
      rw [hbit]
      obtain rfl | hm := Tree.mem_nodes.mp hm
      · rw [← Option.some.inj hq]
        exact fun i _ => rfl
      · exact hagree m (Tree.mem_nodes.mpr (Or.inr hm)) q hq
    refine ⟨⟨⟨?_, nofun, h.wf.1.bound, h.wf.1.left, h.wf.1.right, ?_⟩, h.wf.2⟩, ?_, rfl,
      ⟨[], List.nil_sublist _, List.Perm.refl _⟩, Or.inr ?_⟩
    · intro q hq
      rw [← Option.some.inj hq, hbit]
    · exact fun m hm q hq m' hm' q' hq' => (hall m hm q hq).symm.trans (hall m' hm' q' hq')
    · intro m hm
      obtain rfl | hm := Tree.mem_nodes.mp hm
      · exact Or.inr (Or.inl ⟨rfl, hbit⟩)
      · exact Or.inl (Tree.mem_nodes.mpr (Or.inr hm))
    · dsimp only
      rw [Tree.entries_of_key rfl, Tree.entries_of_glue hk, hnew]

/-- A tree with a new node, and perhaps glue. -/
theorem Grown.of_nodes {t t' : Tree β} (extra : List (Node β)) (hwf : t'.Wf maxbits)
    (hnil : t'.isNil = false) (hextra : extra.Sublist [⟨next + 1, differ, none, default⟩])
    (hnodes : t'.nodes.Perm (newNode next p :: (extra ++ t.nodes))) :
    Grown maxbits p next differ t (t', next) := by
  have hglue : ∀ m ∈ extra, m.key = none ∧ m.bit = differ := by
    intro m hm
    obtain rfl := List.mem_singleton.mp (hextra.subset hm)
    exact ⟨rfl, rfl⟩
  refine ⟨hwf, ?_, hnil, ⟨next :: extra.map Node.loc, ?_, ?_⟩, Or.inr ?_⟩
  · intro m hm
    rw [hnodes.mem_iff, List.mem_cons, List.mem_append] at hm
    obtain rfl | hm | hm := hm
    · exact Or.inr (Or.inl ⟨rfl, rfl⟩)
    · exact Or.inr (Or.inr (hglue m hm))
    · exact Or.inl hm
  · exact (hextra.map Node.loc).cons_cons next
  · refine (hnodes.map Node.loc).trans ?_
    rw [List.map_cons, List.map_append]
    exact List.Perm.refl _
  · refine (hnodes.filter _).trans ?_
    have hnone : extra.filter (fun m => m.key.isSome) = [] := by
      rw [List.filter_eq_nil_iff]
      intro m hm
      rw [(hglue m hm).1]
      nofun
    rw [List.filter_cons_of_pos rfl, List.filter_append, hnone]
    exact List.Perm.refl _

/-- A new leaf below the node, on the side where there is nothing. -/
theorem GraftAt.child (h : GraftAt maxbits p test differ n l r) (next : Nat)
    (hbit : n.bit = differ) (hlt : differ < p.bitlen) :
    Grown maxbits p next differ (.node n l r)
      (Crumb.fill ⟨n, p.addr n.bit, if p.addr n.bit then l else r⟩
        (.node (newNode next p) .nil .nil), next) := by
  have hfree := Tree.eq_nil_of_isNil (h.free hbit hlt)
  have hlt' : n.bit < p.bitlen := hbit ▸ hlt
  have hall := h.agree_all
  rw [← hbit] at hall
  -- the node is the other child beside an empty one
  have hold : Tree.node n l r = Crumb.fill ⟨n, p.addr n.bit, if p.addr n.bit then l else r⟩ .nil := by
    unfold Crumb.fill
    cases hside : p.addr n.bit with
    | true =>
      rw [hside] at hfree
      rw [show r = .nil from hfree]
      rfl
    | false =>
      rw [hside] at hfree
      rw [show l = .nil from hfree]
      rfl
  have hother : (if p.addr n.bit then l else r).Wf maxbits ∧
      ∀ m ∈ (if p.addr n.bit then l else r).nodes,
        n.bit < m.bit ∧ ∀ q, m.key = some q → q.addr n.bit = !p.addr n.bit := by
    cases hside : p.addr n.bit with
    | true => exact ⟨h.wf.2.1, h.wf.1.left⟩
    | false => exact ⟨h.wf.2.2, h.wf.1.right⟩
  have hkey : n.key ≠ none := by
    intro hk
    obtain ⟨-, hl, hr⟩ := h.wf.1.glue hk
    cases hside : p.addr n.bit with
    | true =>
      rw [hside] at hfree
      rw [show r = .nil from hfree] at hr
      cases hr
    | false =>
      rw [hside] at hfree
      rw [show l = .nil from hfree] at hl
      cases hl
  refine Grown.of_nodes [] (Crumb.Ok.wf (p := p) ?_ (leaf_wf h.len) hother.1)
    (Crumb.isNil_fill _ _) (List.nil_sublist _) ?_
  · refine ⟨h.wf.1.own, fun hk => absurd hk hkey, h.wf.1.bound, ?_, hother.2, ?_⟩
    · intro m hm
      obtain rfl := List.mem_singleton.mp hm
      refine ⟨hlt', fun q hq => ?_⟩
      rw [← Option.some.inj hq]
    · intro m hm q hq
      obtain hm | hm | hm := Crumb.mem_fill.mp hm
      · exact hall m (Tree.mem_nodes.mpr (Or.inl hm)) q hq
      · obtain rfl := List.mem_singleton.mp hm
        rw [← Option.some.inj hq]
        exact fun i _ => rfl
      · refine hall m ?_ q hq
        rw [hold]
        exact Crumb.mem_fill.mpr (Or.inr (Or.inr hm))
  · refine (Crumb.nodes_fill _ _).trans ?_
    rw [hold]
    exact (List.Perm.swap _ _ _).trans (List.Perm.cons _ (Crumb.nodes_fill _ _).symm)

/-- A new node above the subtree. -/
theorem GraftAt.parent (h : GraftAt maxbits p test differ n l r) (next : Nat) (hlen : p.bitlen = differ)
    (hlt : differ < n.bit) :
    Grown maxbits p next differ (.node n l r)
      (Crumb.fill ⟨newNode next p, test.addr p.bitlen, .nil⟩ (.node n l r), next) := by
  have hall := h.agree_all
  have hbit := h.bit_all hlt
  rw [← hlen] at hall hbit hlt
  refine Grown.of_nodes [] (Crumb.Ok.wf (p := p) ?_ h.wf trivial)
    (Crumb.isNil_fill _ _) (List.nil_sublist _) ?_
  · refine ⟨?_, nofun, h.len, ?_, nofun, ?_⟩
    · intro q hq
      rw [← Option.some.inj hq]
      rfl
    · intro m hm
      exact ⟨Nat.lt_of_lt_of_le hlt (h.wf.1.head_le hm), hbit m hm⟩
    · intro m hm q hq
      obtain rfl | hm | hm := Crumb.mem_fill.mp hm
      · rw [← Option.some.inj hq]
        exact fun i _ => rfl
      · exact hall m hm q hq
      · cases hm
  · refine (Crumb.nodes_fill _ _).trans ?_
    rw [Tree.nodes, List.append_nil]
    exact List.Perm.refl _

/-- Glue above the subtree, with the new node on its other side. -/
theorem GraftAt.glue (h : GraftAt maxbits p test differ n l r) (next : Nat) (hlen : differ < p.bitlen)
    (hlt : differ < n.bit) :
    Grown maxbits p next differ (.node n l r)
      (Crumb.fill ⟨⟨next + 1, differ, none, default⟩, p.addr differ, .node n l r⟩
        (.node (newNode next p) .nil .nil), next) := by
  have hall := h.agree_all
  have hbit := h.bit_all hlt
  have hne := h.differs hlen hlt
  refine Grown.of_nodes [⟨next + 1, differ, none, default⟩]
    (Crumb.Ok.wf (p := p) ?_ (leaf_wf h.len) h.wf) (Crumb.isNil_fill _ _) (List.Sublist.refl _) ?_
  · refine ⟨nofun, fun _ => ⟨rfl, rfl, rfl⟩, Nat.le_trans h.le h.len, ?_, ?_, ?_⟩
    · intro m hm
      obtain rfl := List.mem_singleton.mp hm
      refine ⟨hlen, fun q hq => ?_⟩
      rw [← Option.some.inj hq]
    · intro m hm
      refine ⟨Nat.lt_of_lt_of_le hlt (h.wf.1.head_le hm), fun q hq => ?_⟩
      rw [hbit m hm q hq]
      exact Bool.eq_not.mpr hne.symm
    · intro m hm q hq
      obtain rfl | hm | hm := Crumb.mem_fill.mp hm
      · cases hq
      · obtain rfl := List.mem_singleton.mp hm
        rw [← Option.some.inj hq]
        exact fun i _ => rfl
      · exact hall m hm q hq
  · refine (Crumb.nodes_fill _ _).trans ?_
    exact List.Perm.swap _ _ _

/-- The change at the node where a lookup ends up. -/
theorem GraftAt.grown (h : GraftAt maxbits p test differ n l r) (next : Nat) :
    Grown maxbits p next differ (.node n l r) (graft maxbits p test.addr differ next (.node n l r)) := by
  rw [graft]
  by_cases hhere : differ = p.bitlen ∧ n.bit = p.bitlen
  · rw [if_pos hhere]
    exact h.here next hhere.1 hhere.2
  rw [if_neg hhere]
  dsimp only
  by_cases hbit : n.bit = differ
  · rw [if_pos hbit]
    have hlt : differ < p.bitlen :=
      Nat.lt_of_le_of_ne h.le fun he => hhere ⟨he, hbit.trans he⟩
    have hchild := h.child next hbit hlt
    rw [side_of_lt (Nat.lt_of_lt_of_le (hbit ▸ hlt) h.len)]
    unfold Crumb.fill at hchild
    cases hside : p.addr n.bit with
    | true =>
      rw [hside] at hchild
      exact hchild
    | false =>
      rw [hside] at hchild
      exact hchild
  rw [if_neg hbit]
  have hlt : differ < n.bit := Nat.lt_of_le_of_ne h.stop (Ne.symm hbit)
  by_cases hlen : p.bitlen = differ
  · rw [if_pos hlen]
    have hparent := h.parent next hlen hlt
    rw [side_of_lt (Nat.lt_of_lt_of_le (hlen ▸ hlt) h.wf.1.bound)]
    unfold Crumb.fill at hparent
    cases hside : test.addr p.bitlen with
    | true =>
      rw [hside] at hparent
      exact hparent
    | false =>
      rw [hside] at hparent
      exact hparent
  · rw [if_neg hlen]
    have hglue := h.glue next (Nat.lt_of_le_of_ne h.le (Ne.symm hlen)) hlt
    rw [side_of_lt (Nat.lt_of_lt_of_le hlt h.wf.1.bound)]
    unfold Crumb.fill at hglue
    cases hside : p.addr differ with
    | true =>
      rw [hside] at hglue
      exact hglue
    | false =>
      rw [hside] at hglue
      exact hglue

theorem Crumb.ok_of_wf {c : Crumb β} {t : Tree β} (h : (c.fill t).Wf maxbits)
    (hagree : ∀ m ∈ (c.fill t).nodes, ∀ q, m.key = some q → Agree c.n.bit p.addr q.addr) :
    c.Ok maxbits p t ∧ t.Wf maxbits ∧ c.other.Wf maxbits := by
  obtain ⟨n, right, other⟩ := c
  cases right with
  | true => exact ⟨⟨h.1.own, fun hk => ⟨(h.1.glue hk).1, (h.1.glue hk).2.2, (h.1.glue hk).2.1⟩,
      h.1.bound, h.1.right, h.1.left, hagree⟩, h.2.2, h.2.1⟩
  | false => exact ⟨⟨h.1.own, h.1.glue, h.1.bound, h.1.left, h.1.right, hagree⟩, h.2⟩

/-- A change below a node that is before `differ`. -/
theorem Grown.fill {c : Crumb β} {t : Tree β} {x : Tree β × Nat}
    (hgrown : Grown maxbits p next differ t x) (h : (c.fill t).Wf maxbits)
    (hagree : ∀ m ∈ (c.fill t).nodes, ∀ q, m.key = some q → Agree c.n.bit p.addr q.addr)
    (hlt : c.n.bit < differ) (hle : differ ≤ p.bitlen) (hside : p.addr c.n.bit = c.right) :
    Grown maxbits p next differ (c.fill t) (c.fill x.1, x.2) := by
  obtain ⟨hok, ht, hother⟩ := Crumb.ok_of_wf h hagree
  have hwf : (c.fill x.1).Wf maxbits := by
    refine Crumb.Ok.wf (p := p) ?_ hgrown.wf hother
    refine ⟨hok.own, ?_, hok.bound, ?_, hok.outside, ?_⟩
    · exact fun hk => ⟨(hok.glue hk).1, hgrown.notNil, (hok.glue hk).2.2⟩
    · intro m hm
      obtain hm | ⟨hk, hbit⟩ | ⟨hk, hbit⟩ := hgrown.nodes m hm
      · exact hok.inside m hm
      · refine ⟨hbit ▸ Nat.lt_of_lt_of_le hlt hle, fun q hq => ?_⟩
        rw [hk] at hq
        rw [← Option.some.inj hq]
        exact hside
      · refine ⟨hbit ▸ hlt, fun q hq => ?_⟩
        rw [hk] at hq
        cases hq
    · intro m hm q hq
      obtain hm | hm | hm := Crumb.mem_fill.mp hm
      · exact hagree m (Crumb.mem_fill.mpr (Or.inl hm)) q hq
      · obtain hm | ⟨hk, -⟩ | ⟨hk, -⟩ := hgrown.nodes m hm
        · exact hagree m (Crumb.mem_fill.mpr (Or.inr (Or.inl hm))) q hq
        · rw [hk] at hq
          rw [← Option.some.inj hq]
          exact fun i _ => rfl
        · rw [hk] at hq
          cases hq
      · exact hagree m (Crumb.mem_fill.mpr (Or.inr (Or.inr hm))) q hq
  obtain ⟨fresh, hfresh, hlocs⟩ := hgrown.locs
  refine ⟨hwf, ?_, Crumb.isNil_fill _ _, ⟨fresh, hfresh, ?_⟩, ?_⟩
  · intro m hm
    obtain hm | hm | hm := Crumb.mem_fill.mp hm
    · exact Or.inl (Crumb.mem_fill.mpr (Or.inl hm))
    · obtain hm | hm := hgrown.nodes m hm
      · exact Or.inl (Crumb.mem_fill.mpr (Or.inr (Or.inl hm)))
      · exact Or.inr hm
    · exact Or.inl (Crumb.mem_fill.mpr (Or.inr (Or.inr hm)))
  · have hfilled : ∀ t : Tree β, ((c.fill t).nodes.map Node.loc).Perm
        (t.nodes.map Node.loc ++ (c.n.loc :: c.other.nodes.map Node.loc)) := by
      intro t
      refine ((c.nodes_fill t).map Node.loc).trans ?_
      rw [List.map_cons, List.map_append]
      exact List.perm_middle.symm
    refine (hfilled x.1).trans ((hlocs.append_right _).trans ?_)
    rw [List.append_assoc]
    exact (hfilled t).symm.append_left fresh
  · obtain ⟨heq, m, hm, hloc, hholds⟩ | hperm := hgrown.entries
    · refine Or.inl ⟨?_, m, Crumb.mem_fill.mpr (Or.inr (Or.inl hm)), hloc, hholds⟩
      dsimp only
      rw [heq]
    · exact Or.inr ((c.entries_fill x.1).trans ((hperm.append_right _).trans
        (List.Perm.cons _ (c.entries_fill t).symm)))

omit [Inhabited β] in
theorem Crumb.fill_eq (c : Crumb β) (t : Tree β) :
    ∃ l r, c.fill t = .node c.n l r ∧ (if c.right then r else l) = t := by
  obtain ⟨n, right, other⟩ := c
  cases right with
  | true => exact ⟨other, t, rfl, rfl⟩
  | false => exact ⟨t, other, rfl, rfl⟩

omit [Inhabited β] in
theorem along_fill {c : Crumb β} (t : Tree β) (g : Tree β → Tree β × Nat)
    (hside : side maxbits p.addr c.n.bit = c.right) :
    along maxbits p differ g (c.fill t) =
      if c.n.bit < differ then (c.fill (along maxbits p differ g t).1, (along maxbits p differ g t).2)
      else g (c.fill t) := by
  obtain ⟨n, right, other⟩ := c
  dsimp only at hside
  cases right with
  | true =>
    refine (along.eq_2 maxbits p differ g n other t).trans ?_
    rw [hside]
    rfl
  | false =>
    refine (along.eq_2 maxbits p differ g n t other).trans ?_
    rw [hside]
    rfl

/-- The second descent through a node where the first one went on. -/
theorem Grown.along_fill {c : Crumb β} {t : Tree β} {n : Node β}
    (hgrown : Grown maxbits p next differ t
      (along maxbits p differ (graft maxbits p test.addr differ next) t))
    (h : (c.fill t).Wf maxbits) (hlen : p.bitlen ≤ maxbits)
    (hside : side maxbits p.addr c.n.bit = c.right) (hn : n ∈ t.nodes) (htest : n.key = some test)
    (hdiffer : differ = differBit p.addr test.addr (min n.bit p.bitlen)) :
    Grown maxbits p next differ (c.fill t)
      (along maxbits p differ (graft maxbits p test.addr differ next) (c.fill t)) := by
  obtain ⟨hle, hagree, hne⟩ := differBit_spec p.addr test.addr (min n.bit p.bitlen)
  rw [← hdiffer] at hle hagree hne
  rw [Patricia.along_fill t _ hside]
  have hn' : n ∈ (c.fill t).nodes := Crumb.mem_fill.mpr (Or.inr (Or.inl hn))
  obtain ⟨l, r, hnode, hchild⟩ := c.fill_eq t
  -- the prefix found is below this node, on the side of the address
  have hbelow : c.n.bit < n.bit ∧ test.addr c.n.bit = c.right := by
    rw [hnode] at h
    cases hright : c.right with
    | true =>
      rw [hright, if_pos rfl] at hchild
      obtain ⟨hlt, hbit⟩ := h.1.right n (hchild ▸ hn)
      exact ⟨hlt, hbit test htest⟩
    | false =>
      rw [hright, if_neg nofun] at hchild
      obtain ⟨hlt, hbit⟩ := h.1.left n (hchild ▸ hn)
      exact ⟨hlt, hbit test htest⟩
  have hmax : c.n.bit < maxbits := Nat.lt_of_lt_of_le hbelow.1 (h.bit_le hn')
  rw [side_of_lt hmax] at hside
  have hhead : ∀ m ∈ (c.fill t).nodes, ∀ q, m.key = some q → Agree c.n.bit test.addr q.addr := by
    rw [hnode] at h hn' ⊢
    exact fun m hm q hq => h.1.agree n hn' test htest m hm q hq
  by_cases hlt : c.n.bit < differ
  · rw [if_pos hlt]
    refine hgrown.fill h ?_ hlt (Nat.le_trans hle (Nat.min_le_right _ _)) hside
    exact fun m hm q hq => (hagree.mono (Nat.le_of_lt hlt)).trans (hhead m hm q hq)
  · rw [if_neg hlt]
    rw [hnode] at h hn' ⊢
    refine GraftAt.grown ⟨h, hlen, Nat.le_trans hle (Nat.min_le_right _ _), Nat.le_of_not_lt hlt,
      ⟨n, hn', htest⟩, hagree, ?_, ?_⟩ next
    · intro hd hd'
      exact hne (Nat.lt_min.mpr ⟨Nat.lt_trans hd' hbelow.1, hd⟩)
    · -- a difference at this node's own bit would have sent the descent elsewhere
      intro hbit hd
      refine absurd ?_ (hne (Nat.lt_min.mpr ⟨hbit ▸ hbelow.1, hd⟩))
      rw [← hbit, hside, hbelow.2]

/-- The second descent, with its change. -/
theorem along_grown {t : Tree β} (h : t.Wf maxbits) (hnil : t.isNil = false)
    (hlen : p.bitlen ≤ maxbits) (next : Nat) {n : Node β} {l' r' : Tree β}
    (hstop : (descend maxbits p t []).1 = .node n l' r') (htest : n.key = some test)
    (hdiffer : differ = differBit p.addr test.addr (min n.bit p.bitlen)) :
    Grown maxbits p next differ t
      (along maxbits p differ (graft maxbits p test.addr differ next) t) := by
  induction t with
  | nil => cases hnil
  | node m l r ihl ihr =>
    obtain ⟨hd, -, hfree⟩ | ⟨hside, hr, hd⟩ | ⟨hside, hl, hd⟩ := descend_cases (p := p) h
    · rw [hd] at hstop
      obtain ⟨rfl, -, -⟩ := Tree.node.inj hstop
      obtain ⟨hle, hagree, hne⟩ := differBit_spec p.addr test.addr (min m.bit p.bitlen)
      rw [← hdiffer] at hle hagree hne
      have hle' := Nat.le_min.mp hle
      rw [along, if_neg (Nat.not_lt.mpr hle'.1)]
      refine GraftAt.grown ⟨h, hlen, hle'.2, hle'.1, ⟨m, Tree.mem_nodes.mpr (Or.inl rfl), htest⟩,
        hagree, fun hd hd' => hne (Nat.lt_min.mpr ⟨hd', hd⟩), ?_⟩ next
      intro hbit hlt
      rw [← hbit] at hlt
      have hside : side maxbits p.addr m.bit = p.addr m.bit :=
        side_of_lt (Nat.lt_of_lt_of_le hlt hlen)
      rw [← hside]
      exact hfree hlt
    · rw [hd] at hstop
      obtain ⟨n', l'', r'', -, hstop', -, hin⟩ := descend_stop (p := p) h.2.2 hr
      rw [hstop] at hstop'
      obtain ⟨rfl, -, -⟩ := Tree.node.inj hstop'
      exact (ihr h.2.2 hr hstop).along_fill (c := ⟨m, true, l⟩) h hlen hside hin htest hdiffer
    · rw [hd] at hstop
      obtain ⟨n', l'', r'', -, hstop', -, hin⟩ := descend_stop (p := p) h.2.1 hl
      rw [hstop] at hstop'
      obtain ⟨rfl, -, -⟩ := Tree.node.inj hstop'
      exact (ihl h.2.1 hl hstop).along_fill (c := ⟨m, false, r⟩) h hlen hside hin htest hdiffer

/-- `rb_patricia_lookup` never fails, and finds the prefix or adds it. -/
theorem lookup_grown {t : Tree β} (h : t.Wf maxbits) (hlen : p.bitlen ≤ maxbits) (next : Nat) :
    ∃ differ x, lookup maxbits p next t = some x ∧ Grown maxbits p next differ t x := by
  cases t with
  | nil =>
    refine ⟨0, (.node (newNode next p) .nil .nil, next), rfl, ?_⟩
    exact Grown.of_nodes [] (leaf_wf hlen) rfl (List.nil_sublist _) (List.Perm.refl _)
  | node m l r =>
    obtain ⟨n, l', r', test, hstop, htest, -⟩ := descend_stop (p := p) h rfl
    obtain ⟨hle, -, -⟩ := differBit_spec p.addr test.addr (min n.bit p.bitlen)
    refine ⟨differBit p.addr test.addr (min n.bit p.bitlen), _, ?_,
      along_grown h rfl hlen next hstop htest rfl⟩
    rw [← climb_along h rfl hstop (Nat.le_trans hle (Nat.min_le_left _ _)), lookup]
    · rw [hstop]
      dsimp only
      rw [htest]
      rfl
    · nofun

end Lookup

end Bluebox.Patricia
