/-
  Bluebox.Limits.Basic

  The limits of a connection class in `s_conf.c`: `attach_conf` and `detach_conf`
  count the clients of a class, and those of each CIDR block of it in a Patricia
  tree.

  The settings of the classes are fixed and the clients have IPv4 addresses.  A
  call that follows a null pointer or one to freed memory has no result.
-/
import Mathlib.Data.List.Count
import Mathlib.Logic.Function.Basic
import Mathlib.Algebra.Order.Ring.Int
import Bluebox.Lib.Reach
import Bluebox.Patricia.Search

namespace Bluebox.Limits

open Bluebox.Lib Bluebox.Patricia

-- ============================================================================
-- Data
-- ============================================================================

/-- `PATRICIA_BITS`. -/
def patriciaBits : Nat := 128

/-- An IPv4 address. -/
abbrev Ip := BitVec 32

/-- Its bits as they lie in a prefix. -/
def bits (ip : Ip) : Nat → Bool := fun i => ip.getMsbD i

/-- The settings of a class.  `cidr_ipv4_bitlen` is cut to 32 when it is read. -/
structure Settings where
  maxUsers : Int
  cidrAmount : Int
  cidrIpv4Bitlen : Nat
  cidrIpv6Bitlen : Nat
  ipv4Bitlen_le : cidrIpv4Bitlen ≤ 32

/-- `struct Class`: its counters.  Tree nodes from `next` on are not in use. -/
structure Class where
  currUsers : Int
  ipLimits : Patricia.Tree Int
  next : Nat
  freed : Bool

/-- `struct ConfItem`, for an auth block. -/
structure Conf where
  classPtr : Option Nat
  confClient : Bool
  exemptLimits : Bool
  illegal : Bool
  clients : Int
  freed : Bool

/-- A local client. -/
structure Client where
  ip : Ip
  attConf : Option Nat

/-- The return values of `attach_conf`. -/
inductive Code
  | ok
  | notAuthorised
  | tooManyLocal
  | iLineFull
deriving DecidableEq, Repr

structure World where
  classes : Nat → Class
  confs : Nat → Conf
  clients : List Client

-- ============================================================================
-- Blocks
-- ============================================================================

/-- The limits by address are not zero. -/
def Settings.limited (s : Settings) : Bool :=
  !(decide (s.cidrAmount = 0) || (decide (s.cidrIpv4Bitlen = 0) && decide (s.cidrIpv6Bitlen = 0)))

/-- The block of an address. -/
def Settings.block (s : Settings) (ip : Ip) : Pfx := ⟨s.cidrIpv4Bitlen, bits ip⟩

/-- `rb_match_ip`. -/
def matchIp (t : Patricia.Tree Int) (ip : Ip) : Option (Node Int) := searchBest t ⟨32, bits ip⟩

/-- `rb_match_ip`, and `make_and_lookup_ip` where it finds nothing. -/
def Class.findOrMake (s : Settings) (c : Class) (ip : Ip) : Option (Class × Nat) :=
  match matchIp c.ipLimits ip with
  | some pnode => some (c, pnode.loc)
  | none =>
    (lookup patriciaBits (s.block ip) c.next c.ipLimits).map fun x =>
      ({ c with ipLimits := x.1, next := c.next + 2 }, x.2)

/-- `add_ip_limit`; the second value is whether the client may come in. -/
def addIpLimit (s : Settings) (c : Class) (exempt : Bool) (ip : Ip) : Option (Class × Bool) :=
  if s.limited = false then some (c, true)
  else
    (c.findOrMake s ip).bind fun x =>
      (x.1.ipLimits.deref x.2).map fun pnode =>
        if pnode.data ≥ s.cidrAmount ∧ exempt = false then
          if pnode.data = 0 then ({ x.1 with ipLimits := remove x.2 x.1.ipLimits }, false)
          else (x.1, false)
        else ({ x.1 with ipLimits := x.1.ipLimits.setData x.2 (· + 1) }, true)

/-- `remove_ip_limit`. -/
def removeIpLimit (s : Settings) (c : Class) (ip : Ip) : Class :=
  if s.limited = false then c
  else
    match matchIp c.ipLimits ip with
    | none => c
    | some pnode =>
      let t := c.ipLimits.setData pnode.loc (· - 1)
      if pnode.data - 1 = 0 then { c with ipLimits := remove pnode.loc t } else { c with ipLimits := t }

-- ============================================================================
-- attach_conf and detach_conf
-- ============================================================================

section Calls

variable (settings : Nat → Settings)

def World.setClass (w : World) (k : Nat) (c : Class) : World :=
  { w with classes := Function.update w.classes k c }

def World.setConf (w : World) (a : Nat) (c : Conf) : World :=
  { w with confs := Function.update w.confs a c }

/-- The counters of the class of an auth block after a client left. -/
def World.leaveClass (w : World) (a k : Nat) (ip : Ip) : Option World :=
  let c := w.classes k
  if c.freed then none
  else
    let c := removeIpLimit (settings k) c ip
    let c := if c.currUsers > 0 then { c with currUsers := c.currUsers - 1 } else c
    if (settings k).maxUsers = -1 ∧ c.currUsers = 0 then
      some ((w.setClass k { c with freed := true }).setConf a { w.confs a with classPtr := none })
    else some (w.setClass k c)

/-- An auth block has one client fewer; an illegal one without clients is freed. -/
def Conf.release (c : Conf) : Conf :=
  { c with clients := c.clients - 1, freed := decide (c.clients - 1 = 0) && c.illegal }

/-- `detach_conf`. -/
def World.detachConf (w : World) (i : Nat) : Option World :=
  w.clients[i]?.bind fun client =>
    match client.attConf with
    | none => some w
    | some a =>
      if (w.confs a).freed then none
      else
        let left := (w.confs a).classPtr.elim (some w) fun k => w.leaveClass settings a k client.ip
        left.map fun w =>
          { w.setConf a (w.confs a).release with
            clients := w.clients.set i { client with attConf := none } }

/-- The last lines of `attach_conf`. -/
def World.enterClass (w : World) (i a : Nat) : Option World :=
  let aconf := w.confs a
  aconf.classPtr.bind fun k =>
    if aconf.freed = true ∨ (w.classes k).freed = true then none
    else
      w.clients[i]?.map fun client =>
        { (w.setConf a { aconf with clients := aconf.clients + 1 }).setClass k
            { w.classes k with currUsers := (w.classes k).currUsers + 1 } with
          clients := w.clients.set i { client with attConf := some a } }

/-- The class has as many clients as it may, and the auth block is not exempt. -/
def World.full (w : World) (a k : Nat) : Bool :=
  (w.confs a).confClient && decide ((w.classes k).currUsers ≥ (settings k).maxUsers) &&
    decide ((settings k).maxUsers > 0) && !(w.confs a).exemptLimits

/-- `attach_conf`. -/
def World.attachConf (w : World) (i a : Nat) : Option (World × Code) :=
  w.clients[i]?.bind fun client =>
    let aconf := w.confs a
    if aconf.freed then none
    else if aconf.illegal then some (w, .notAuthorised)
    else
      aconf.classPtr.bind fun k =>
        if (w.classes k).freed then none
        else
          (addIpLimit (settings k) (w.classes k) aconf.exemptLimits client.ip).bind fun x =>
            let w := w.setClass k x.1
            if x.2 = false then some (w, .tooManyLocal)
            else if w.full settings a k then some (w, .iLineFull)
            else
              let detached := if client.attConf = none then some w else w.detachConf settings i
              (detached.bind fun w => w.enterClass i a).map fun w => (w, .ok)

inductive Op
  | attach (i a : Nat)
  | detach (i : Nat)
deriving DecidableEq, Repr

def World.step (w : World) : Op → Option World
  | .attach i a => (w.attachConf settings i a).map Prod.fst
  | .detach i => w.detachConf settings i

end Calls

/-- No client is attached yet.  A conf is a class, `CONF_CLIENT`, exempt from limits
    or not, and illegal or not. -/
def World.start (ips : List Ip) (confs : Nat → Option Nat × Bool × Bool × Bool) : World where
  classes := fun _ => ⟨0, .nil, 0, false⟩
  confs := fun a => ⟨(confs a).1, (confs a).2.1, (confs a).2.2.1, (confs a).2.2.2, 0, false⟩
  clients := ips.map fun ip => ⟨ip, none⟩

-- ============================================================================
-- Exactness
-- ============================================================================

/-- The client is attached to the class. -/
def World.attached (w : World) (k : Nat) (client : Client) : Bool :=
  client.attConf.any fun a => (w.confs a).classPtr == some k

/-- The number of clients attached to a class. -/
def World.users (w : World) (k : Nat) : Nat := w.clients.countP (w.attached k)

/-- The number of those whose address is in a block. -/
def World.usersIn (w : World) (k : Nat) (p : Pfx) : Nat :=
  w.clients.countP fun client => w.attached k client && compWithMask p.addr (bits client.ip) p.bitlen

/-- The counters are right: the count of every block in `ip_limits` is the number
    of clients there, a client has its block in it, and `CurrUsers` is the number
    of clients. -/
structure World.Exact (settings : Nat → Settings) (w : World) : Prop where
  counted : ∀ k, (w.classes k).freed = false → ∀ n ∈ (w.classes k).ipLimits.entries, ∀ p,
    n.key = some p → n.data = w.usersIn k p
  present : ∀ k, (w.classes k).freed = false → (settings k).limited = true →
    ∀ client ∈ w.clients, w.attached k client = true →
      ∃ n ∈ (w.classes k).ipLimits.entries, n.Holds ((settings k).block client.ip)
  users : ∀ k, (w.classes k).freed = false → (w.classes k).currUsers = w.users k

/-- Every counter of every class is the same. -/
def SameCounters (w w' : World) : Prop :=
  ∀ k, (w'.classes k).currUsers = (w.classes k).currUsers ∧
    ∀ p, (w'.classes k).ipLimits.dataAt p = (w.classes k).ipLimits.dataAt p

-- ============================================================================
-- The counters of one class
-- ============================================================================

/-- Two addresses are in one block. -/
def Settings.same (s : Settings) (ip ip' : Ip) : Bool :=
  compWithMask (bits ip) (bits ip') s.cidrIpv4Bitlen

/-- The tree of a class is sound and has only blocks of its own length. -/
structure Class.Ok (s : Settings) (c : Class) : Prop where
  sound : c.ipLimits.Sound patriciaBits c.next
  keys : ∀ n ∈ c.ipLimits.entries, s.limited = true ∧ ∃ ip, n.key = some (s.block ip)

section OneClass

variable {s : Settings} {c : Class}

theorem same_iff {ip ip' : Ip} :
    s.same ip ip' = true ↔ Agree s.cidrIpv4Bitlen (bits ip) (bits ip') := compWithMask_iff

theorem holds_block {n : Node Int} {ip ip' : Ip} (h : n.Holds (s.block ip)) :
    n.Holds (s.block ip') ↔ s.same ip ip' = true := by
  obtain ⟨q, hq, hlen, hagree⟩ := h
  rw [same_iff]
  constructor
  · rintro ⟨q', hq', -, hagree'⟩
    rw [hq] at hq'
    rw [← Option.some.inj hq'] at hagree'
    exact hagree.symm.trans hagree'
  · intro hsame
    exact ⟨q, hq, hlen, hagree.trans hsame⟩

theorem Class.Ok.matchIp_some (h : c.Ok s) {ip : Ip} {n : Node Int}
    (hn : matchIp c.ipLimits ip = some n) : n ∈ c.ipLimits.entries ∧ n.Holds (s.block ip) := by
  obtain ⟨hmem, hcovers⟩ := searchBest_some hn
  obtain ⟨-, ip', hkey⟩ := h.keys n hmem
  obtain ⟨q, hq, hagree⟩ := Node.covers_iff.mp hcovers
  rw [hkey] at hq
  obtain rfl := Option.some.inj hq
  exact ⟨hmem, _, hkey, rfl, hagree⟩

theorem Class.Ok.matchIp_none (h : c.Ok s) {ip : Ip} (hn : matchIp c.ipLimits ip = none)
    {n : Node Int} (hmem : n ∈ c.ipLimits.nodes) : ¬ n.Holds (s.block ip) := by
  rintro ⟨q, hq, hlen, hagree⟩
  have hle : q.bitlen ≤ 32 := hlen ▸ s.ipv4Bitlen_le
  exact searchBest_none h.sound.wf hn hmem hq hle (hlen ▸ hagree)

/-- The node that `add_ip_limit` works on. -/
theorem Class.Ok.findOrMake (h : c.Ok s) (hlimited : s.limited = true) (ip : Ip) :
    ∃ c' n, c.findOrMake s ip = some (c', n.loc) ∧ c'.Ok s ∧ n ∈ c'.ipLimits.entries ∧
      n.Holds (s.block ip) ∧ c'.currUsers = c.currUsers ∧ c'.freed = c.freed ∧
      ∀ p, c'.ipLimits.dataAt p = c.ipLimits.dataAt p := by
  unfold Class.findOrMake
  cases hm : matchIp c.ipLimits ip with
  | some n =>
    obtain ⟨hmem, hholds⟩ := h.matchIp_some hm
    exact ⟨c, n, rfl, h, hmem, hholds, rfl, rfl, fun _ => rfl⟩
  | none =>
    have hlen : (s.block ip).bitlen ≤ patriciaBits :=
      Nat.le_trans s.ipv4Bitlen_le (by decide)
    obtain ⟨x, hx, hsound, ⟨e, he, hloc, hholds, hnew⟩, -, hdata⟩ := h.sound.lookup hlen
    have hentry : e ∈ x.1.entries := Tree.mem_entries.mpr ⟨he, hholds.isSome⟩
    refine ⟨{ c with ipLimits := x.1, next := c.next + 2 }, e, ?_, ⟨hsound, ?_⟩, hentry, hholds, rfl,
      rfl, hdata⟩
    · rw [hx, hloc]
      rfl
    · intro n hn
      obtain hn | ⟨hne, henew, -⟩ := hnew n hn
      · exact h.keys n hn
      · rw [hne, henew]
        exact ⟨hlimited, ip, rfl⟩

/-- `add_ip_limit`: the count of the block of the client goes up by one, or nothing
    changes. -/
theorem Class.Ok.addIpLimit (h : c.Ok s) (exempt : Bool) (ip : Ip) :
    ∃ c' ok, addIpLimit s c exempt ip = some (c', ok) ∧ c'.Ok s ∧ c'.currUsers = c.currUsers ∧
      c'.freed = c.freed ∧
      (ok = false ↔ s.limited = true ∧ c.ipLimits.dataAt (s.block ip) ≥ s.cidrAmount ∧
        exempt = false) ∧
      (ok = false ∨ s.limited = false → ∀ p, c'.ipLimits.dataAt p = c.ipLimits.dataAt p) ∧
      (ok = true → s.limited = true → ∀ ip', c'.ipLimits.dataAt (s.block ip') =
        c.ipLimits.dataAt (s.block ip') + (if s.same ip ip' then 1 else 0)) := by
  unfold Limits.addIpLimit
  by_cases hlimited : s.limited = false
  · rw [if_pos hlimited]
    refine ⟨c, true, rfl, h, rfl, rfl, ?_, fun _ _ => rfl, ?_⟩
    · rw [hlimited]
      simp
    · intro _ hl
      rw [hlimited] at hl
      cases hl
  rw [if_neg hlimited]
  have hlimited : s.limited = true := by simpa using hlimited
  obtain ⟨c', n, hfound, hok, hmem, hholds, husers, hfreed, hdata⟩ := h.findOrMake hlimited ip
  have hnode := (Tree.mem_entries.mp hmem).1
  have hcount : n.data = c.ipLimits.dataAt (s.block ip) := by
    rw [← hdata, hok.sound.dataAt hnode hholds]
  rw [hfound, Option.bind_some]
  dsimp only
  rw [hok.sound.deref hnode, Option.map_some, hcount]
  by_cases hover : c.ipLimits.dataAt (s.block ip) ≥ s.cidrAmount ∧ exempt = false
  · rw [if_pos hover]
    by_cases hzero : c.ipLimits.dataAt (s.block ip) = 0
    · rw [if_pos hzero]
      obtain ⟨hsound, hperm, hgone, hrest⟩ := hok.sound.remove hmem
      refine ⟨_, false, rfl, ⟨hsound, ?_⟩, husers, hfreed, by simp [hlimited, hover], fun _ p => ?_,
        nofun⟩
      · exact fun m hm => hok.keys m (hperm.mem_iff.mpr (List.mem_cons_of_mem n hm))
      · dsimp only
        by_cases hp : n.Holds p
        · rw [hgone p hp, ← hdata p, hok.sound.dataAt hnode hp, hcount, hzero]
          rfl
        · rw [hrest p hp, hdata]
    · rw [if_neg hzero]
      exact ⟨c', false, rfl, hok, husers, hfreed, by simp [hlimited, hover], fun _ p => hdata p, nofun⟩
  · rw [if_neg hover]
    obtain ⟨hsound, hself, hrest⟩ := hok.sound.setData hmem (· + 1)
    refine ⟨_, true, rfl, ⟨hsound, ?_⟩, husers, hfreed, ?_, ?_, ?_⟩
    · intro m hm
      rw [Tree.entries_setData] at hm
      obtain ⟨m', hm', rfl⟩ := List.mem_map.mp hm
      rw [(Node.update_same _ _ m').2.2]
      exact hok.keys m' hm'
    · constructor
      · nofun
      · exact fun hcontra => absurd hcontra.2 hover
    · rintro (hfalse | hfalse)
      · cases hfalse
      · rw [hlimited] at hfalse
        cases hfalse
    · intro _ _ ip'
      dsimp only
      by_cases hp : n.Holds (s.block ip')
      · rw [if_pos ((holds_block hholds).mp hp), hself _ hp, ← hdata, hok.sound.dataAt hnode hp]
      · rw [if_neg fun hs => hp ((holds_block hholds).mpr hs), hrest _ hp, hdata, Int.add_zero]

/-- `remove_ip_limit`: the count of the block of a client that is counted goes
    down by one. -/
theorem Class.Ok.removeIpLimit (h : c.Ok s) (ip : Ip)
    (hpos : s.limited = true → 0 < c.ipLimits.dataAt (s.block ip)) :
    (removeIpLimit s c ip).Ok s ∧ (removeIpLimit s c ip).currUsers = c.currUsers ∧
      (removeIpLimit s c ip).freed = c.freed ∧
      (s.limited = true → ∀ ip', (removeIpLimit s c ip).ipLimits.dataAt (s.block ip') =
        c.ipLimits.dataAt (s.block ip') - (if s.same ip ip' then 1 else 0)) := by
  unfold Limits.removeIpLimit
  by_cases hlimited : s.limited = false
  · rw [if_pos hlimited]
    refine ⟨h, rfl, rfl, fun hl => ?_⟩
    rw [hlimited] at hl
    cases hl
  rw [if_neg hlimited]
  have hpos := hpos (by simpa using hlimited)
  cases hm : matchIp c.ipLimits ip with
  | none =>
    rw [h.sound.dataAt_none fun m hm' => h.matchIp_none hm hm'] at hpos
    cases hpos
  | some n =>
    obtain ⟨hmem, hholds⟩ := h.matchIp_some hm
    have hnode := (Tree.mem_entries.mp hmem).1
    obtain ⟨hsound, hself, hrest⟩ := h.sound.setData hmem (· - 1)
    -- the node with the new count
    have hmem' : n.update n.loc (· - 1) ∈ (c.ipLimits.setData n.loc (· - 1)).entries := by
      rw [Tree.entries_setData]
      exact List.mem_map_of_mem hmem
    have hloc' := (Node.update_same n.loc (· - 1) n).1
    have hkeys : ∀ m ∈ (c.ipLimits.setData n.loc (· - 1)).entries,
        s.limited = true ∧ ∃ ip, m.key = some (s.block ip) := by
      intro m hm
      rw [Tree.entries_setData] at hm
      obtain ⟨m', hm', rfl⟩ := List.mem_map.mp hm
      rw [(Node.update_same _ _ m').2.2]
      exact h.keys m' hm'
    have hholds' : ∀ p, (n.update n.loc (· - 1)).Holds p ↔ n.Holds p := by
      intro p
      unfold Node.Holds
      rw [(Node.update_same n.loc (· - 1) n).2.2]
    have hdata : ∀ ip', (c.ipLimits.setData n.loc (· - 1)).dataAt (s.block ip') =
        c.ipLimits.dataAt (s.block ip') - (if s.same ip ip' then 1 else 0) := by
      intro ip'
      by_cases hp : n.Holds (s.block ip')
      · rw [if_pos ((holds_block hholds).mp hp), hself _ hp, h.sound.dataAt hnode hp]
      · rw [if_neg fun hs => hp ((holds_block hholds).mpr hs), hrest _ hp, Int.sub_zero]
    dsimp only
    by_cases hzero : n.data - 1 = 0
    · rw [if_pos hzero]
      obtain ⟨hsound', hperm, hgone, hrest'⟩ := hsound.remove hmem'
      rw [hloc'] at hsound' hperm hgone hrest'
      refine ⟨⟨hsound', fun m hm => hkeys m (hperm.mem_iff.mpr (List.mem_cons_of_mem _ hm))⟩, rfl, rfl,
        fun _ ip' => ?_⟩
      dsimp only
      rw [← hdata]
      by_cases hp : n.Holds (s.block ip')
      · rw [hgone _ ((hholds' _).mpr hp), hself _ hp, hzero]
        rfl
      · exact hrest' _ fun hp' => hp ((hholds' _).mp hp')
    · rw [if_neg hzero]
      exact ⟨⟨hsound, hkeys⟩, rfl, rfl, fun _ => hdata⟩

end OneClass

end Bluebox.Limits
