/-
  Bluebox.Dline.Basic

  D-lines: the tree of `reject.c`, the lists of temporary ones of `s_conf.c`, the
  commands of `m_dline.c`, and the part of `bandb_handle_finish` that is about
  them.

  A `ConfItem` and a node of the tree point to each other.  Following a pointer to
  a node that is not there any more has no result.  `mo_undline` looks at the flags
  of a `ConfItem` that it has just freed, and the free list of the heap lies over
  them: what it reads is an input of the command.
-/
import Mathlib.Logic.Function.Basic
import Bluebox.Lib.Reach
import Bluebox.Hostmask

namespace Bluebox.Dline

open Bluebox.Lib Bluebox.Patricia

-- ============================================================================
-- Data
-- ============================================================================

/-- The lists of temporary D-lines. -/
inductive Temp
  | min
  | hour
  | day
  | week
deriving DecidableEq, Repr

/-- `struct ConfItem` of a D-line. -/
structure Conf where
  host : Bytes
  temporary : Bool
  locked : Bool
  port : Temp
  hold : Int
  pnode : Option Nat

/-- The D-lines.  Addresses of `ConfItem`s and of nodes from the next ones on are not
    in use.  An exemption is kept by its host. -/
structure World where
  confs : Nat → Conf
  nextConf : Nat
  dlineTree : Patricia.Tree (Option Nat)
  nextNode : Nat
  elineTree : Patricia.Tree (Option Bytes)
  nextEline : Nat
  temp : Temp → List Nat

/-- The configuration and the user that a command comes from. -/
structure Config where
  pton : Bytes → Option IpAddr
  nonRedundantKlines : Bool

def World.start : World where
  confs := fun _ => ⟨[], false, false, .min, 0, none⟩
  nextConf := 0
  dlineTree := .nil
  nextNode := 0
  elineTree := .nil
  nextEline := 0
  temp := fun _ => []

def World.setConf (w : World) (c : Nat) (k : Conf) : World :=
  { w with confs := Function.update w.confs c k }

def World.setTemp (w : World) (t : Temp) (l : List Nat) : World :=
  { w with temp := Function.update w.temp t l }

-- ============================================================================
-- reject.c
-- ============================================================================

variable (cfg : Config)

/-- `add_dline`, through `add_ipline`. -/
def World.addDline (w : World) (c : Nat) : Option World :=
  match parseNetmask cfg.pton (w.confs c).host with
  | none => some w
  | some mask =>
    (lookup 128 (newPrefix mask.addr mask.bits) w.nextNode w.dlineTree).map fun x =>
      { w.setConf c { w.confs c with pnode := some x.2 } with
        dlineTree := x.1.setData x.2 fun _ => some c
        nextNode := w.nextNode + 2 }

/-- `add_eline`. -/
def World.addEline (w : World) (host : Bytes) : Option World :=
  match parseNetmask cfg.pton host with
  | none => some w
  | some mask =>
    (lookup 128 (newPrefix mask.addr mask.bits) w.nextEline w.elineTree).map fun x =>
      { w with elineTree := x.1.setData x.2 fun _ => some host, nextEline := w.nextEline + 2 }

/-- `remove_dline`, through `delete_ipline`: D-lines have no clients, so the
    `ConfItem` is freed. -/
def World.removeDline (w : World) (c : Nat) : Option World :=
  (w.confs c).pnode.bind fun loc =>
    (w.dlineTree.deref loc).map fun _ => { w with dlineTree := remove loc w.dlineTree }

/-- The host of what `find_dline` finds. -/
def World.findDline (w : World) (addr : IpAddr) : Option Bytes :=
  match (rbMatchIp w.elineTree addr).bind Node.data with
  | some host => some host
  | none => ((rbMatchIp w.dlineTree addr).bind Node.data).map fun c => (w.confs c).host

/-- One node in the walk of `remove_perm_dlines`. -/
def World.removePerm (w : World) (n : Node (Option Nat)) : Option World :=
  n.data.bind fun c => if (w.confs c).temporary then some w else w.removeDline c

/-- `remove_perm_dlines`.  The walk goes on by the links of the node it has just
    freed. -/
def World.removePermDlines (w : World) : Option World :=
  w.dlineTree.entries.foldlM World.removePerm w

-- ============================================================================
-- s_conf.c
-- ============================================================================

/-- The list for a temporary D-line that ends at a time. -/
def tempList (hold now : Int) : Temp :=
  if hold ≥ now + 10080 * 60 then .week
  else if hold ≥ now + 1440 * 60 then .day
  else if hold ≥ now + 60 * 60 then .hour
  else .min

/-- `add_temp_dline`. -/
def World.addTempDline (w : World) (now : Int) (c : Nat) : Option World :=
  let t := tempList (w.confs c).hold now
  let w := w.setTemp t (c :: w.temp t)
  (w.setConf c { w.confs c with port := t, temporary := true }).addDline cfg c

/-- One `ConfItem` in the loop of `expire_temp_kd`. -/
def World.expireOne (t : Temp) (now : Int) (w : World) (c : Nat) : Option World :=
  if (w.confs c).hold ≤ now then
    let removed := if (w.confs c).pnode = none then some w else w.removeDline c
    removed.map fun w => w.setTemp t ((w.temp t).erase c)
  else some w

/-- `expire_temp_kd`, for a list of D-lines. -/
def World.expireTempKd (w : World) (t : Temp) (now : Int) : Option World :=
  (w.temp t).foldlM (World.expireOne t now) w

/-- Where `reorganise_temp_kd` moves a `ConfItem`. -/
def Conf.moveTo (k : Conf) (now : Int) : Option Temp :=
  if k.hold < now + 60 * 60 then some .min
  else if k.port = .day ∨ k.port = .week then
    if k.hold < now + 1440 * 60 then some .hour
    else if k.port = .week ∧ k.hold < now + 10080 * 60 then some .day
    else none
  else none

def World.reorganiseOne (t : Temp) (now : Int) (w : World) (c : Nat) : World :=
  match (w.confs c).moveTo now with
  | none => w
  | some t' =>
    let w := w.setTemp t ((w.temp t).erase c)
    (w.setTemp t' (c :: w.temp t')).setConf c { w.confs c with port := t' }

/-- `reorganise_temp_kd`, for a list of D-lines. -/
def World.reorganiseTempKd (w : World) (t : Temp) (now : Int) : World :=
  (w.temp t).foldl (World.reorganiseOne t now) w

-- ============================================================================
-- m_dline.c
-- ============================================================================

/-- `make_conf`. -/
def World.makeConf (w : World) (host : Bytes) (locked : Bool) (hold : Int) : World :=
  { w.setConf w.nextConf ⟨host, false, locked, .min, hold, none⟩ with nextConf := w.nextConf + 1 }

/-- `valid_dline`. -/
def validDline (admin : Bool) (dlhost : Bytes) : Bool :=
  (parseNetmask cfg.pton dlhost).any fun mask => decide ((if admin then 8 else 16) ≤ mask.bits)

/-- `already_placed_dline`: whether the D-line may be set. -/
def World.alreadyPlacedDline (w : World) (dlhost : Bytes) : Bool :=
  !cfg.nonRedundantKlines || (parseNetmask cfg.pton dlhost).all fun mask =>
    (w.findDline mask.addr).all fun host =>
      (parseNetmask cfg.pton host).all fun placed => !decide (mask.bits ≥ placed.bits)

/-- `set_dline`: what it does to the D-lines. -/
def World.setDline (w : World) (dlhost : Bytes) (time now : Int) (admin : Bool) : Option World :=
  let c := w.nextConf
  if 0 < time then (w.makeConf dlhost admin (now + time)).addTempDline cfg now c
  else (w.makeConf dlhost admin 0).addDline cfg c

/-- `mo_dline` and `mo_admindline`, from an operator with the privilege. -/
def World.dline (w : World) (isAdmin : Bool) (dlhost : Bytes) (time now : Int) (admin : Bool) :
    Option World :=
  if validDline cfg isAdmin dlhost = false then some w
  else if w.alreadyPlacedDline cfg dlhost = false then some w
  else w.setDline cfg dlhost time now admin

/-- The D-line that `mo_undline` is about to remove. -/
def World.undlined (w : World) (isAdmin : Bool) (host : Bytes) : Option Nat :=
  (parseNetmask cfg.pton host).bind fun mask =>
    ((rbMatchIpExact w.dlineTree mask.addr mask.bits).bind Node.data).filter fun c =>
      !((w.confs c).locked && !isAdmin)

/-- `mo_undline`; `stale` is the temporary flag that it reads from the freed
    `ConfItem`. -/
def World.undline (w : World) (isAdmin : Bool) (host : Bytes) (stale : Bool) : Option World :=
  match w.undlined cfg isAdmin host with
  | none => some w
  | some c =>
    (w.removeDline c).map fun w =>
      if stale then w.setTemp (w.confs c).port ((w.temp (w.confs c).port).erase c) else w

-- ============================================================================
-- Reload
-- ============================================================================

/-- One D-line of `bandb_pending`. -/
def World.addRow (w : World) (row : Bytes × Bool) : Option World :=
  if (parseNetmask cfg.pton row.1).isNone then some w
  else (w.makeConf row.1 row.2 0).addDline cfg w.nextConf

/-- What `bandb_handle_finish` does to the D-lines. -/
def World.finish (w : World) (rows : List (Bytes × Bool)) : Option World :=
  w.removePermDlines.bind fun w => rows.foldlM (World.addRow cfg) w

-- ============================================================================
-- Steps
-- ============================================================================

inductive Op
  | dline (isAdmin : Bool) (dlhost : Bytes) (time now : Int) (admin : Bool)
  | undline (isAdmin : Bool) (host : Bytes) (stale : Bool)
  | expire (t : Temp) (now : Int)
  | reorganise (t : Temp) (now : Int)
  | finish (rows : List (Bytes × Bool))
  | exempt (host : Bytes)

def World.step (w : World) : Op → Option World
  | .dline isAdmin dlhost time now admin => w.dline cfg isAdmin dlhost time now admin
  | .undline isAdmin host stale => w.undline cfg isAdmin host stale
  | .expire t now => w.expireTempKd t now
  | .reorganise t now => some (w.reorganiseTempKd t now)
  | .finish rows => w.finish cfg rows
  | .exempt host => w.addEline cfg host

-- ============================================================================
-- Ownership
-- ============================================================================

/-- A D-line is in force when the tree has it. -/
def World.InForce (w : World) (c : Nat) : Prop := ∃ n ∈ w.dlineTree.entries, n.data = some c

/-- D-lines and the tree own each other. -/
structure World.Owned (w : World) : Prop where
  temp : ∀ t, ∀ c ∈ w.temp t, ∃ n ∈ w.dlineTree.nodes,
    (w.confs c).pnode = some n.loc ∧ n.data = some c
  held : ∀ n ∈ w.dlineTree.entries, ∀ c, n.data = some c → (w.confs c).pnode = some n.loc

/-- The D-line with the prefix of a host. -/
def World.heldAt (w : World) (host : Bytes) : Option Nat :=
  (parseNetmask cfg.pton host).bind fun mask => w.dlineTree.dataAt (newPrefix mask.addr mask.bits)

/-- The D-lines that a step is to remove, or to replace by one with the same
    prefix. -/
def World.removes (w : World) (c : Nat) : Op → Prop
  | .dline _ dlhost _ _ _ => w.heldAt cfg dlhost = some c
  | .undline isAdmin host _ => w.undlined cfg isAdmin host = some c
  | .expire t now => c ∈ w.temp t ∧ (w.confs c).hold ≤ now
  | .finish _ => (w.confs c).temporary = false
  | .reorganise _ _ => False
  | .exempt _ => False

end Bluebox.Dline
