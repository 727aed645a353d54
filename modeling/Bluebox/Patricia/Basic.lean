/-
  Bluebox.Patricia.Basic

  The Patricia tree of `libratbox/src/patricia.c`.  A node has an address, under
  which the rest of the program keeps pointers to it; a node without a prefix is
  glue.  `rb_patricia_lookup` goes down, and then up again through the parents it
  came by, so it is written with the path it took.

  An address is the sequence of its bits, the first one first.  The bits behind
  the end of an IPv4 address are zero, as `rb_malloc` leaves them.
-/
import Mathlib.Data.List.Basic

namespace Bluebox.Patricia

-- ============================================================================
-- Data
-- ============================================================================

/-- `rb_prefix_t`. -/
structure Pfx where
  bitlen : Nat
  addr : Nat → Bool

/-- The fields of `rb_patricia_node_t` without the links; `at` is its address.  The
    value of `data` for a null pointer is `default`. -/
structure Node (β : Type) where
  loc : Nat
  bit : Nat
  key : Option Pfx
  data : β

inductive Tree (β : Type)
  | nil
  | node (n : Node β) (l r : Tree β)

variable {β : Type}

def Tree.isNil : Tree β → Bool
  | .nil => true
  | .node _ _ _ => false

/-- The nodes in the order of `RB_PATRICIA_WALK_ALL`. -/
def Tree.nodes : Tree β → List (Node β)
  | .nil => []
  | .node n l r => n :: (l.nodes ++ r.nodes)

/-- The nodes that `RB_PATRICIA_WALK` visits. -/
def Tree.entries (t : Tree β) : List (Node β) := t.nodes.filter fun n => n.key.isSome

/-- `comp_with_mask`. -/
def compWithMask (a b : Nat → Bool) (mask : Nat) : Bool := (List.range mask).all fun i => a i == b i

/-- The loop for `differ_bit`: the first bit that differs, if it is before
    `check_bit`. -/
def differBit (a b : Nat → Bool) (checkBit : Nat) : Nat :=
  ((List.range checkBit).find? fun i => a i != b i).getD checkBit

/-- Whether an address goes right at a bit. -/
def side (maxbits : Nat) (addr : Nat → Bool) (bit : Nat) : Bool := decide (bit < maxbits) && addr bit

-- ============================================================================
-- Paths
-- ============================================================================

/-- A parent, with the side where the path left it and its other child. -/
structure Crumb (β : Type) where
  n : Node β
  right : Bool
  other : Tree β

/-- Put the child back. -/
def Crumb.fill (c : Crumb β) (t : Tree β) : Tree β :=
  if c.right then .node c.n c.other t else .node c.n t c.other

/-- The whole tree again; the nearest parent stands first. -/
def plug (t : Tree β) : List (Crumb β) → Tree β
  | [] => t
  | c :: path => plug (c.fill t) path

/-- The first loop of `rb_patricia_lookup`. -/
def descend (maxbits : Nat) (p : Pfx) : Tree β → List (Crumb β) → Tree β × List (Crumb β)
  | .nil, path => (.nil, path)
  | .node n l r, path =>
    if n.bit < p.bitlen ∨ n.key.isNone = true then
      if side maxbits p.addr n.bit then
        if r.isNil then (.node n l r, path) else descend maxbits p r (⟨n, true, l⟩ :: path)
      else
        if l.isNil then (.node n l r, path) else descend maxbits p l (⟨n, false, r⟩ :: path)
    else (.node n l r, path)

/-- The loop up, as long as the parent's bit is not before `differ_bit`. -/
def climb (differ : Nat) (t : Tree β) : List (Crumb β) → Tree β × List (Crumb β)
  | [] => (t, [])
  | c :: path => if c.n.bit ≥ differ then climb differ (c.fill t) path else (t, c :: path)

-- ============================================================================
-- Lookup
-- ============================================================================

variable [Inhabited β]

/-- A new node for a prefix. -/
def newNode (next : Nat) (p : Pfx) : Node β := ⟨next, p.bitlen, some p, default⟩

/-- What `rb_patricia_lookup` does at the node where it ends up, and the address it
    returns. -/
def graft (maxbits : Nat) (p : Pfx) (testAddr : Nat → Bool) (differ next : Nat) :
    Tree β → Tree β × Nat
  | .nil => (.nil, next)
  | .node n l r =>
    if differ = p.bitlen ∧ n.bit = p.bitlen then
      if n.key.isSome then (.node n l r, n.loc) else (.node { n with key := some p } l r, n.loc)
    else
      let new : Tree β := .node (newNode next p) .nil .nil
      if n.bit = differ then
        if side maxbits p.addr n.bit then (.node n l new, next) else (.node n new r, next)
      else if p.bitlen = differ then
        if side maxbits testAddr p.bitlen then
          (.node (newNode next p) .nil (.node n l r), next)
        else (.node (newNode next p) (.node n l r) .nil, next)
      else
        let glue : Node β := ⟨next + 1, differ, none, default⟩
        if side maxbits p.addr differ then (.node glue (.node n l r) new, next)
        else (.node glue new (.node n l r), next)

/-- `rb_patricia_lookup`: the tree and the address of the node for the prefix.
    Addresses from `next` on are free, and at most two are taken.  There is no
    result where the source fails an assertion. -/
def lookup (maxbits : Nat) (p : Pfx) (next : Nat) (t : Tree β) : Option (Tree β × Nat) :=
  match t with
  | .nil => some (.node (newNode next p) .nil .nil, next)
  | t =>
    let stop := descend maxbits p t []
    match stop.1 with
    | .nil => none
    | .node n _ _ =>
      n.key.map fun test =>
        let differ := differBit p.addr test.addr (min n.bit p.bitlen)
        let found := climb differ stop.1 stop.2
        let grafted := graft maxbits p test.addr differ next found.1
        (plug grafted.1 found.2, grafted.2)

-- ============================================================================
-- Search and removal
-- ============================================================================

/-- The stack that `rb_patricia_search_best2` builds, with `inclusive` set. -/
def bestStack (p : Pfx) : Tree β → List (Node β) → List (Node β)
  | .nil, stack => stack
  | .node n l r, stack =>
    let pushed := if n.key.isSome then n :: stack else stack
    if n.bit < p.bitlen then
      if p.addr n.bit then bestStack p r pushed else bestStack p l pushed
    else pushed

/-- The prefix of the node covers an address. -/
def Node.covers (n : Node β) (addr : Nat → Bool) : Bool :=
  n.key.any fun q => compWithMask q.addr addr q.bitlen

/-- `rb_patricia_search_best`. -/
def searchBest (t : Tree β) (p : Pfx) : Option (Node β) :=
  (bestStack p t []).find? fun n => n.covers p.addr

/-- `rb_patricia_search_exact`. -/
def searchExact (p : Pfx) : Tree β → Option (Node β)
  | .nil => none
  | .node n l r =>
    if n.bit < p.bitlen then
      if p.addr n.bit then searchExact p r else searchExact p l
    else if n.bit > p.bitlen ∨ n.key.isNone = true then none
    else if n.covers p.addr then some n else none

/-- A leaf at an address. -/
def Tree.isLeaf (loc : Nat) : Tree β → Bool
  | .node n .nil .nil => n.loc == loc
  | _ => false

/-- `rb_patricia_remove`.  Glue that loses a child goes too. -/
def remove (loc : Nat) : Tree β → Tree β
  | .nil => .nil
  | .node n l r =>
    if n.loc = loc then
      if l.isNil then r
      else if r.isNil then l
      else .node { n with key := none, data := default } l r
    else if l.isLeaf loc then
      if n.key.isSome then .node n .nil r else r
    else if r.isLeaf loc then
      if n.key.isSome then .node n l .nil else l
    else .node n (remove loc l) (remove loc r)

/-- Follow a pointer. -/
def Tree.deref (loc : Nat) (t : Tree β) : Option (Node β) := t.nodes.find? fun n => n.loc == loc

/-- Write the data of a node. -/
def Tree.setData (loc : Nat) (f : β → β) : Tree β → Tree β
  | .nil => .nil
  | .node n l r =>
    .node (if n.loc = loc then { n with data := f n.data } else n) (l.setData loc f) (r.setData loc f)

end Bluebox.Patricia
