/-
  Bluebox.Limits.Global

  The clients of the whole network per CIDR block (`reject.c`): `global_tree` is kept when a
  user is registered, introduced or leaves, and built anew by `rehash_global_cidr_tree` from
  `global_client_list`.

  That list also holds servers and connections that are no users yet, and the test that is to
  leave them out asks for a client that is both this server and a server.  Whether an
  unregistered connection is counted then depends on its `sockhost` alone.
-/
import Bluebox.Lib.CString
import Bluebox.Limits.Basic

namespace Bluebox.Clones

open Bluebox.Lib Bluebox.Patricia
open Bluebox.Limits (Ip bits matchIp patriciaBits Settings Class same_iff holds_block)

-- ============================================================================
-- Data
-- ============================================================================

/-- `global_cidr_ipv4_bitlen`, the length of an IPv4 prefix. -/
structure GlobalConf where
  ipv4Bitlen : Nat
  ipv4Bitlen_le : ipv4Bitlen ≤ 32

/-- What a client is; `STAT_CONNECTING` and `STAT_HANDSHAKE` count as unknown. -/
inductive Status
  | me
  | unknown
  | server
  | user
deriving DecidableEq, Repr

/-- What is read of a client: `localClient->ip`, and `sockhost`, which is a text. -/
structure Client where
  status : Status
  myConnect : Bool
  ip : Ip
  sockhost : Bytes
deriving DecidableEq

/-- `MyClient`. -/
def Client.myClient (cl : Client) : Bool := cl.myConnect && cl.status == .user

/-- `global_tree`.  Nodes from `next` on are not in use. -/
structure GlobalTree where
  tree : Patricia.Tree Int
  next : Nat

/-- `rb_new_patricia`. -/
def GlobalTree.empty : GlobalTree := ⟨.nil, 0⟩

/-- `global_client_list` and `global_tree`. -/
structure State where
  clients : List Client
  global : GlobalTree

-- ============================================================================
-- Counting
-- ============================================================================

section Counting

variable (s : GlobalConf)

/-- The block of an address. -/
def GlobalConf.block (ip : Ip) : Pfx := ⟨s.ipv4Bitlen, bits ip⟩

/-- `inc_global_ip`. -/
def incGlobalIp (g : GlobalTree) (ip : Ip) : Option GlobalTree :=
  match matchIp g.tree ip with
  | some pnode => some { g with tree := g.tree.setData pnode.loc (· + 1) }
  | none =>
    (lookup patriciaBits (s.block ip) g.next g.tree).map fun x =>
      ⟨x.1.setData x.2 fun _ => 1, g.next + 2⟩

/-- `dec_global_ip`. -/
def decGlobalIp (g : GlobalTree) (ip : Ip) : GlobalTree :=
  match matchIp g.tree ip with
  | none => g
  | some pnode =>
    let t := g.tree.setData pnode.loc (· - 1)
    if pnode.data - 1 = 0 then { g with tree := remove pnode.loc t } else { g with tree := t }

variable (pton : Bytes → Option Ip)

/-- The address a client is counted under: that of the connection of a user of this server,
    else what `rb_inet_pton_sock` makes of `sockhost`. -/
def Client.addr (cl : Client) : Option Ip :=
  if cl.myClient then some cl.ip
  else if cl.sockhost = [] ∨ cl.sockhost = [48] then none
  else pton cl.sockhost

/-- `inc_global_cidr_count`. -/
def incGlobalCidrCount (g : GlobalTree) (cl : Client) : Option GlobalTree :=
  match cl.addr pton with
  | none => some g
  | some ip => incGlobalIp s g ip

/-- `dec_global_cidr_count`. -/
def decGlobalCidrCount (g : GlobalTree) (cl : Client) : GlobalTree :=
  match cl.addr pton with
  | none => g
  | some ip => decGlobalIp g ip

/-- The loop of `rehash_global_cidr_tree`. -/
def rehashLoop : GlobalTree → List Client → Option GlobalTree
  | g, [] => some g
  | g, cl :: l =>
    if cl.status = .me ∧ cl.status = .server then rehashLoop g l
    else (incGlobalCidrCount s pton g cl).bind fun g => rehashLoop g l

/-- `rehash_global_cidr_tree`. -/
def rehashGlobalCidrTree (clients : List Client) : Option GlobalTree :=
  rehashLoop s pton GlobalTree.empty clients

-- ============================================================================
-- What happens
-- ============================================================================

/-- What happens to clients; a number is a place in `global_client_list`. -/
inductive Event
  | accept (ip : Ip) (sockhost : Bytes)
  | register (i : Nat)
  | introduce (sockhost : Bytes)
  | link (i : Nat)
  | introduceServer
  | exit (i : Nat)
  | unlink (behind : List Nat)
  | rehash

/-- A client leaves; only a user goes through `exit_generic_client`. -/
def State.exit (st : State) (i : Nat) : Option State :=
  st.clients[i]?.map fun cl =>
    { clients := st.clients.eraseIdx i
      global := if cl.status = .user then decGlobalCidrCount pton st.global cl else st.global }

/-- A connection is put into the list once its host name is known, and becomes a user
    (`register_local_user`) or a server.  What a server leaves behind goes one by one. -/
def State.step (st : State) : Event → Option State
  | .accept ip sockhost => some { st with clients := st.clients ++ [⟨.unknown, true, ip, sockhost⟩] }
  | .register i =>
    st.clients[i]?.bind fun cl =>
      if cl.myConnect = true ∧ cl.status = .unknown then
        let user := { cl with status := .user }
        (incGlobalCidrCount s pton st.global user).map fun g => ⟨st.clients.set i user, g⟩
      else none
  | .introduce sockhost =>
    let user : Client := ⟨.user, false, 0, sockhost⟩
    (incGlobalCidrCount s pton st.global user).map fun g => ⟨st.clients ++ [user], g⟩
  | .link i =>
    st.clients[i]?.bind fun cl =>
      if cl.myConnect = true ∧ cl.status = .unknown then
        some { st with clients := st.clients.set i { cl with status := .server } }
      else none
  | .introduceServer => some { st with clients := st.clients ++ [⟨.server, false, 0, []⟩] }
  | .exit i => st.exit pton i
  | .unlink behind => behind.foldlM (fun st i => st.exit pton i) st
  | .rehash => (rehashGlobalCidrTree s pton st.clients).map fun g => { st with global := g }

/-- Only this server is there. -/
def State.start : State := ⟨[⟨.me, false, 0, []⟩], GlobalTree.empty⟩

-- ============================================================================
-- Exactness
-- ============================================================================

/-- The client is a user whose address is in a block. -/
def Client.within (p : Pfx) (cl : Client) : Bool :=
  cl.status == .user && (cl.addr pton).any fun ip => compWithMask p.addr (bits ip) p.bitlen

/-- The number of users in a block. -/
def State.usersIn (st : State) (p : Pfx) : Nat := st.clients.countP (Client.within pton p)

/-- The counts are right: each block in the tree has users and their number, and the block of
    each user is there. -/
structure State.Exact (st : State) : Prop where
  counted : ∀ n ∈ st.global.tree.entries, ∀ p, n.key = some p →
    p.bitlen = s.ipv4Bitlen ∧ n.data = st.usersIn pton p ∧ 0 < st.usersIn pton p
  present : ∀ cl ∈ st.clients, cl.status = .user → ∀ ip ∈ cl.addr pton,
    ∃ n ∈ st.global.tree.entries, n.Holds (s.block ip)

/-- No server and no unregistered connection has an address in `sockhost`. -/
def State.Settled (st : State) : Prop :=
  ∀ cl ∈ st.clients, cl.status ≠ .user → cl.addr pton = none

/-- The tree is built anew only in such a state. -/
def SettledRehash (st : State) (e : Event) : Prop := e = .rehash → st.Settled pton

end Counting

-- ============================================================================
-- The tree
-- ============================================================================

/-- The tree is sound, and has only blocks of its length, all with a count. -/
structure GlobalTree.Ok (s : GlobalConf) (g : GlobalTree) : Prop where
  sound : g.tree.Sound patriciaBits g.next
  keys : ∀ n ∈ g.tree.entries, ∃ ip, n.key = some (s.block ip)
  pos : ∀ n ∈ g.tree.entries, 0 < n.data

/-- Two addresses are in one block. -/
def GlobalConf.same (s : GlobalConf) (ip ip' : Ip) : Bool := compWithMask (bits ip) (bits ip') s.ipv4Bitlen

/-- The count of the block of an address. -/
def GlobalTree.count (s : GlobalConf) (g : GlobalTree) (ip : Ip) : Int := g.tree.dataAt (s.block ip)

section Tree

variable {s : GlobalConf} {g : GlobalTree}

/-- A class with the same blocks: `rb_match_ip` finds the block of an address in its tree. -/
def GlobalConf.settings (s : GlobalConf) : Settings := ⟨0, 1, s.ipv4Bitlen, 1, s.ipv4Bitlen_le⟩

theorem GlobalTree.Ok.asClass (h : g.Ok s) : (⟨0, g.tree, g.next, false⟩ : Limits.Class).Ok s.settings where
  sound := h.sound
  keys := fun n hn => ⟨by simp [Settings.limited, GlobalConf.settings], h.keys n hn⟩

theorem GlobalTree.ok_empty : GlobalTree.empty.Ok s := ⟨Tree.sound_nil, nofun, nofun⟩

theorem GlobalTree.count_empty (ip : Ip) : GlobalTree.empty.count s ip = 0 := rfl

theorem same_self (ip : Ip) : s.same ip ip = true := compWithMask_iff.mpr fun _ _ => rfl

theorem same_of_holds {n : Node Int} {ip ip' : Ip} (h : n.Holds (s.block ip)) :
    n.Holds (s.block ip') ↔ s.same ip ip' = true := holds_block (s := s.settings) h

/-- The keys and counts of a tree with one count changed. -/
theorem entries_setData_ok (t : Patricia.Tree Int) (loc : Nat) (f : Int → Int)
    (hkeys : ∀ n ∈ t.entries, ∃ ip, n.key = some (s.block ip))
    (hpos : ∀ n ∈ t.entries, 0 < (n.update loc f).data) :
    ∀ n ∈ (t.setData loc f).entries, (∃ ip, n.key = some (s.block ip)) ∧ 0 < n.data := by
  intro n hn
  rw [Tree.entries_setData] at hn
  obtain ⟨m, hm, rfl⟩ := List.mem_map.mp hn
  rw [(Node.update_same loc f m).2.2]
  exact ⟨hkeys m hm, hpos m hm⟩

/-- `inc_global_ip`: the count of one block goes up. -/
theorem GlobalTree.Ok.inc (h : g.Ok s) (ip : Ip) : ∃ g', incGlobalIp s g ip = some g' ∧ g'.Ok s ∧
    ∀ ip', g'.count s ip' = g.count s ip' + if s.same ip ip' then 1 else 0 := by
  unfold incGlobalIp
  cases hm : matchIp g.tree ip with
  | some n =>
    obtain ⟨hmem, hholds⟩ := h.asClass.matchIp_some hm
    obtain ⟨hsound, hself, hrest⟩ := h.sound.setData hmem (· + 1)
    have hentries := entries_setData_ok g.tree n.loc (· + 1) h.keys fun m hm => by
      have hpos := h.pos m hm
      unfold Node.update
      split
      · exact Int.lt_trans hpos (Int.lt_succ _)
      · exact hpos
    refine ⟨_, rfl, ⟨hsound, fun m hm => (hentries m hm).1, fun m hm => (hentries m hm).2⟩, fun ip' => ?_⟩
    unfold GlobalTree.count
    by_cases hp : n.Holds (s.block ip')
    · rw [if_pos ((same_of_holds hholds).mp hp), hself _ hp, h.sound.dataAt (Tree.mem_entries.mp hmem).1 hp]
    · rw [if_neg fun hs => hp ((same_of_holds hholds).mpr hs), hrest _ hp, Int.add_zero]
  | none =>
    have hlen : (s.block ip).bitlen ≤ patriciaBits := Nat.le_trans s.ipv4Bitlen_le (by decide)
    obtain ⟨x, hx, hsound, ⟨e, he, hloc, hholds, hnew⟩, -, hdata⟩ := h.sound.lookup hlen
    have hentry : e ∈ x.1.entries := Tree.mem_entries.mpr ⟨he, hholds.isSome⟩
    obtain ⟨hsound', hself, hrest⟩ := hsound.setData hentry fun _ => 1
    rw [hloc] at hsound' hself hrest
    have hentries := entries_setData_ok x.1 x.2 (fun _ => 1)
      (fun m hm => by
        obtain hm | ⟨rfl, hfresh, -⟩ := hnew m hm
        · exact h.keys m hm
        · rw [hfresh]
          exact ⟨ip, rfl⟩)
      fun m hm => by
        unfold Node.update
        split
        · exact Int.one_pos
        · rename_i hne
          obtain hm | ⟨rfl, -⟩ := hnew m hm
          · exact h.pos m hm
          · exact absurd hloc hne
    refine ⟨⟨x.1.setData x.2 fun _ => 1, g.next + 2⟩, by rw [hx]; rfl,
      ⟨hsound', fun m hm => (hentries m hm).1, fun m hm => (hentries m hm).2⟩, fun ip' => ?_⟩
    unfold GlobalTree.count
    by_cases hp : e.Holds (s.block ip')
    · -- There was no such block before.
      have hsame := (same_of_holds hholds).mp hp
      have hzero : g.tree.dataAt (s.block ip') = default := by
        refine h.sound.dataAt_none fun m hm hm' => h.asClass.matchIp_none ‹_› hm ?_
        refine (holds_block (s := s.settings) hm').mpr ?_
        exact same_iff.mpr (same_iff (s := s.settings).mp hsame).symm
      rw [if_pos hsame, hself _ hp, hzero]
      rfl
    · rw [if_neg fun hs => hp ((same_of_holds hholds).mpr hs), hrest _ hp, hdata, Int.add_zero]

/-- `dec_global_ip`: the count of a block that is counted goes down, and the block is gone
    with its last user. -/
theorem GlobalTree.Ok.dec (h : g.Ok s) {ip : Ip} (hpos : 0 < g.count s ip) :
    (decGlobalIp g ip).Ok s ∧
      ∀ ip', (decGlobalIp g ip).count s ip' = g.count s ip' - if s.same ip ip' then 1 else 0 := by
  unfold decGlobalIp
  cases hm : matchIp g.tree ip with
  | none =>
    have hzero : g.count s ip = 0 := h.sound.dataAt_none fun m hm' => h.asClass.matchIp_none hm hm'
    omega
  | some n =>
    obtain ⟨hmem, hholds⟩ := h.asClass.matchIp_some hm
    have hcount := h.pos n hmem
    obtain ⟨hsound, hself, hrest⟩ := h.sound.setData hmem (· - 1)
    have hdata : ∀ ip', (g.tree.setData n.loc (· - 1)).dataAt (s.block ip') =
        g.count s ip' - if s.same ip ip' then 1 else 0 := by
      intro ip'
      unfold GlobalTree.count
      by_cases hp : n.Holds (s.block ip')
      · rw [if_pos ((same_of_holds hholds).mp hp), hself _ hp, h.sound.dataAt (Tree.mem_entries.mp hmem).1 hp]
      · rw [if_neg fun hs => hp ((same_of_holds hholds).mpr hs), hrest _ hp, Int.sub_zero]
    have hkeys : ∀ m ∈ (g.tree.setData n.loc (· - 1)).entries, ∃ m' ∈ g.tree.entries,
        m = m'.update n.loc (· - 1) ∧ ∃ ip, m.key = some (s.block ip) := by
      intro m hm
      rw [Tree.entries_setData] at hm
      obtain ⟨m', hm', rfl⟩ := List.mem_map.mp hm
      refine ⟨m', hm', rfl, ?_⟩
      rw [(Node.update_same _ _ m').2.2]
      exact h.keys m' hm'
    dsimp only
    by_cases hzero : n.data - 1 = 0
    · rw [if_pos hzero]
      have hmem' : n.update n.loc (· - 1) ∈ (g.tree.setData n.loc (· - 1)).entries := by
        rw [Tree.entries_setData]
        exact List.mem_map_of_mem hmem
      obtain ⟨hsound', hperm, hgone, hrest'⟩ := hsound.remove hmem'
      rw [(Node.update_same n.loc (· - 1) n).1] at hsound' hperm hgone hrest'
      have hnodup := hperm.nodup_iff.mp ((List.Nodup.of_map _ hsound.nodup).filter _)
      refine ⟨⟨hsound', fun m hm => ?_, fun m hm => ?_⟩, fun ip' => ?_⟩
      · obtain ⟨-, -, -, hkey⟩ := hkeys m (hperm.mem_iff.mpr (List.mem_cons_of_mem _ hm))
        exact hkey
      · obtain ⟨m', hm', rfl, -⟩ := hkeys m (hperm.mem_iff.mpr (List.mem_cons_of_mem _ hm))
        -- The node that went down to zero is not among those left.
        have hne : m'.loc ≠ n.loc := by
          intro hloc
          have heq := h.sound.eq_of_loc (Tree.mem_entries.mp hm').1 (Tree.mem_entries.mp hmem).1 hloc
          rw [heq] at hm
          exact (List.nodup_cons.mp hnodup).1 hm
        rw [Node.update, if_neg hne]
        exact h.pos m' hm'
      · rw [← hdata]
        unfold GlobalTree.count
        have hsame : ∀ p, (n.update n.loc (· - 1)).Holds p ↔ n.Holds p := by
          intro p
          unfold Node.Holds
          rw [(Node.update_same n.loc (· - 1) n).2.2]
        by_cases hp : n.Holds (s.block ip')
        · rw [hgone _ ((hsame _).mpr hp), hself _ hp, hzero]
          rfl
        · exact hrest' _ fun hp' => hp ((hsame _).mp hp')
    · rw [if_neg hzero]
      refine ⟨⟨hsound, fun m hm => ?_, fun m hm => ?_⟩, hdata⟩
      · obtain ⟨-, -, -, hkey⟩ := hkeys m hm
        exact hkey
      · obtain ⟨m', hm', rfl, -⟩ := hkeys m hm
        have hpos' := h.pos m' hm'
        unfold Node.update
        split
        · rename_i hloc
          have heq := h.sound.eq_of_loc (Tree.mem_entries.mp hm').1 (Tree.mem_entries.mp hmem).1 hloc
          show 0 < m'.data - 1
          rw [heq]
          omega
        · exact hpos'

end Tree

-- ============================================================================
-- Clients
-- ============================================================================

section Clients

variable {s : GlobalConf} {pton : Bytes → Option Ip} {g : GlobalTree}

/-- The address of a client, user or not, is in a block. -/
def Client.hits (pton : Bytes → Option Ip) (p : Pfx) (cl : Client) : Bool :=
  (cl.addr pton).any fun ip => compWithMask p.addr (bits ip) p.bitlen

theorem within_of_user {cl : Client} (h : cl.status = .user) (p : Pfx) :
    cl.within pton p = cl.hits pton p := by
  rw [Client.within, h]
  rfl

theorem within_of_not_user {cl : Client} (h : cl.status ≠ .user) (p : Pfx) : cl.within pton p = false := by
  rw [Client.within, beq_eq_false_iff_ne.mpr h, Bool.false_and]

theorem hits_of_addr {cl : Client} {ip : Ip} (h : cl.addr pton = some ip) (ip' : Ip) :
    cl.hits pton (s.block ip') = s.same ip ip' := by
  rw [Client.hits, h, Option.any_some, Bool.eq_iff_iff]
  exact compWithMask_iff.trans ((⟨Agree.symm, Agree.symm⟩ : Agree _ _ _ ↔ _).trans compWithMask_iff.symm)

theorem hits_of_none {cl : Client} (h : cl.addr pton = none) (p : Pfx) : cl.hits pton p = false := by
  rw [Client.hits, h]
  rfl

/-- `inc_global_cidr_count`. -/
theorem GlobalTree.Ok.incCount (h : g.Ok s) (pton : Bytes → Option Ip) (cl : Client) :
    ∃ g', incGlobalCidrCount s pton g cl = some g' ∧ g'.Ok s ∧
      ∀ ip, g'.count s ip = g.count s ip + if cl.hits pton (s.block ip) then 1 else 0 := by
  unfold incGlobalCidrCount
  cases haddr : cl.addr pton with
  | none =>
    refine ⟨g, rfl, h, fun ip => ?_⟩
    rw [hits_of_none haddr, if_neg Bool.false_ne_true, Int.add_zero]
  | some ip =>
    obtain ⟨g', hinc, hok, hcount⟩ := h.inc ip
    refine ⟨g', hinc, hok, fun ip' => ?_⟩
    rw [hits_of_addr haddr]
    exact hcount ip'

/-- `dec_global_cidr_count`, for a client that is counted. -/
theorem GlobalTree.Ok.decCount (h : g.Ok s) {cl : Client}
    (hpos : ∀ ip ∈ cl.addr pton, 0 < g.count s ip) :
    (decGlobalCidrCount pton g cl).Ok s ∧
      ∀ ip, (decGlobalCidrCount pton g cl).count s ip =
        g.count s ip - if cl.hits pton (s.block ip) then 1 else 0 := by
  unfold decGlobalCidrCount
  cases haddr : cl.addr pton with
  | none =>
    refine ⟨h, fun ip => ?_⟩
    rw [hits_of_none haddr, if_neg Bool.false_ne_true, Int.sub_zero]
  | some ip =>
    obtain ⟨hok, hcount⟩ := h.dec (hpos ip haddr)
    refine ⟨hok, fun ip' => ?_⟩
    rw [hits_of_addr haddr]
    exact hcount ip'

/-- The loop counts every client of the list that has an address. -/
theorem GlobalTree.Ok.rehashLoop (pton : Bytes → Option Ip) (clients : List Client) : ∀ {g : GlobalTree}, g.Ok s →
    ∃ g', Clones.rehashLoop s pton g clients = some g' ∧ g'.Ok s ∧
      ∀ ip, g'.count s ip = g.count s ip + clients.countP (Client.hits pton (s.block ip)) := by
  induction clients with
  | nil => exact fun {g} h => ⟨g, rfl, h, fun ip => (Int.add_zero _).symm⟩
  | cons cl clients ih =>
    intro g h
    obtain ⟨g₁, hinc, hok₁, hcount₁⟩ := h.incCount pton cl
    obtain ⟨g₂, hloop, hok₂, hcount₂⟩ := ih hok₁
    refine ⟨g₂, ?_, hok₂, fun ip => ?_⟩
    · have hboth : ¬ (cl.status = .me ∧ cl.status = .server) := by
        rintro ⟨hme, hserver⟩
        rw [hme] at hserver
        cases hserver
      rw [Clones.rehashLoop, if_neg hboth, hinc, Option.bind_some, hloop]
    · rw [hcount₂, hcount₁, List.countP_cons]
      split
      · omega
      · omega

end Clients

-- ============================================================================
-- Runs
-- ============================================================================

/-- The inductive invariant. -/
structure State.Inv (s : GlobalConf) (pton : Bytes → Option Ip) (st : State) : Prop where
  ok : st.global.Ok s
  count : ∀ ip, st.global.count s ip = st.usersIn pton (s.block ip)

section Runs

variable {s : GlobalConf} {pton : Bytes → Option Ip} {st st' : State}

theorem State.inv_start : State.start.Inv s pton := ⟨GlobalTree.ok_empty, fun _ => rfl⟩

/-- What the invariant is for. -/
theorem State.Inv.exact (h : st.Inv s pton) : st.Exact s pton where
  counted := by
    intro n hn p hp
    obtain ⟨ip, hkey⟩ := h.ok.keys n hn
    rw [hp] at hkey
    obtain rfl := Option.some.inj hkey
    have hholds : n.Holds (s.block ip) := ⟨_, hp, rfl, fun _ _ => rfl⟩
    have hcount := h.count ip
    rw [GlobalTree.count, h.ok.sound.dataAt (Tree.mem_entries.mp hn).1 hholds] at hcount
    have hpos := h.ok.pos n hn
    exact ⟨rfl, hcount, by omega⟩
  present := by
    intro cl hcl huser ip hip
    have hpos : 0 < st.usersIn pton (s.block ip) := by
      refine List.countP_pos_iff.mpr ⟨cl, hcl, ?_⟩
      rw [within_of_user huser, hits_of_addr hip]
      exact same_self ip
    have hcount := h.count ip
    by_contra hnone
    have hzero : st.global.count s ip = 0 :=
      h.ok.sound.dataAt_none fun m hm hp => hnone ⟨m, Tree.mem_entries.mpr ⟨hm, hp.isSome⟩, hp⟩
    omega

/-- One client is replaced by another that is no user, or that was none. -/
theorem usersIn_set {i : Nat} {cl new : Client} (hi : st.clients[i]? = some cl) (hcl : cl.status ≠ .user)
    (p : Pfx) : (st.clients.set i new).countP (Client.within pton p) =
      st.usersIn pton p + if new.within pton p then 1 else 0 := by
  obtain ⟨hlt, rfl⟩ := List.getElem?_eq_some_iff.mp hi
  rw [List.countP_set hlt, within_of_not_user hcl, if_neg Bool.false_ne_true, Nat.sub_zero]
  rfl

theorem usersIn_append (new : Client) (p : Pfx) :
    (st.clients ++ [new]).countP (Client.within pton p) =
      st.usersIn pton p + if new.within pton p then 1 else 0 := by
  rw [List.countP_append, List.countP_singleton]
  rfl

theorem usersIn_eraseIdx (pton : Bytes → Option Ip) {i : Nat} {cl : Client} (hi : st.clients[i]? = some cl) (p : Pfx) :
    (st.clients.eraseIdx i).countP (Client.within pton p) + (if cl.within pton p then 1 else 0) =
      st.usersIn pton p := by
  obtain ⟨hlt, rfl⟩ := List.getElem?_eq_some_iff.mp hi
  have hperm := (List.getElem_cons_eraseIdx_perm hlt).countP_eq (Client.within pton p)
  rw [List.countP_cons] at hperm
  exact hperm

/-- A client that is no user comes, or becomes something else. -/
theorem State.Inv.idle (h : st.Inv s pton) {clients : List Client}
    (hcount : ∀ p, clients.countP (Client.within pton p) = st.usersIn pton p) :
    State.Inv s pton ⟨clients, st.global⟩ :=
  ⟨h.ok, fun ip => by rw [h.count]; exact congrArg _ (hcount _).symm⟩

/-- A user comes. -/
theorem State.Inv.counted (h : st.Inv s pton) {cl : Client} (huser : cl.status = .user) {g : GlobalTree}
    (hinc : incGlobalCidrCount s pton st.global cl = some g) {clients : List Client}
    (hcount : ∀ p, clients.countP (Client.within pton p) =
      st.usersIn pton p + if cl.within pton p then 1 else 0) : State.Inv s pton ⟨clients, g⟩ := by
  obtain ⟨g', hinc', hok, hg⟩ := h.ok.incCount pton cl
  obtain rfl := Option.some.inj (hinc.symm.trans hinc')
  refine ⟨hok, fun ip => ?_⟩
  show g.count s ip = ((clients.countP (Client.within pton (s.block ip)) : Nat) : Int)
  rw [hg, hcount, h.count, within_of_user huser]
  split
  · rfl
  · rfl

/-- A client leaves; a user is counted until then. -/
theorem State.Inv.exit (h : st.Inv s pton) {i : Nat} (hexit : st.exit pton i = some st') :
    st'.Inv s pton := by
  obtain ⟨cl, hi, rfl⟩ := Option.map_eq_some_iff.mp hexit
  have herase := usersIn_eraseIdx pton hi
  by_cases huser : cl.status = .user
  · have hpos : ∀ ip ∈ cl.addr pton, 0 < st.global.count s ip := by
      intro ip hip
      have hsum := herase (s.block ip)
      rw [within_of_user huser, hits_of_addr hip, if_pos (same_self ip)] at hsum
      rw [h.count]
      omega
    obtain ⟨hok, hcount⟩ := h.ok.decCount hpos
    rw [if_pos huser]
    refine ⟨hok, fun ip => ?_⟩
    have hsum := herase (s.block ip)
    rw [within_of_user huser] at hsum
    show (decGlobalCidrCount pton st.global cl).count s ip =
      (((st.clients.eraseIdx i).countP (Client.within pton (s.block ip)) : Nat) : Int)
    rw [hcount, h.count, ← hsum]
    split
    · omega
    · omega
  · rw [if_neg huser]
    refine h.idle fun p => ?_
    have hsum := herase p
    rw [within_of_not_user huser, if_neg Bool.false_ne_true, Nat.add_zero] at hsum
    exact hsum

theorem State.Inv.unlink (behind : List Nat) : ∀ {st : State}, st.Inv s pton →
    behind.foldlM (fun st i => State.exit pton st i) st = some st' → st'.Inv s pton := by
  induction behind with
  | nil =>
    intro st h hrun
    obtain rfl := Option.some.inj hrun
    exact h
  | cons i behind ih =>
    intro st h hrun
    rw [List.foldlM_cons] at hrun
    obtain ⟨st₁, hexit, hrun⟩ := Option.bind_eq_some_iff.mp hrun
    exact ih (h.exit hexit) hrun

/-- Where nobody else has an address, the tree that is built anew is right. -/
theorem State.Inv.rehash (h : st.Settled pton) {g : GlobalTree}
    (hg : rehashGlobalCidrTree s pton st.clients = some g) : State.Inv s pton ⟨st.clients, g⟩ := by
  obtain ⟨g', hg', hok, hcount⟩ := GlobalTree.Ok.rehashLoop pton st.clients (@GlobalTree.ok_empty s)
  obtain rfl := Option.some.inj (hg.symm.trans hg')
  refine ⟨hok, fun ip => ?_⟩
  rw [hcount, GlobalTree.count_empty, Int.zero_add]
  refine congrArg _ (List.countP_congr fun cl hcl => ?_)
  by_cases huser : cl.status = .user
  · rw [within_of_user huser]
  · rw [within_of_not_user huser, hits_of_none (h cl hcl huser)]

theorem State.Inv.step (h : st.Inv s pton) {e : Event} (hok : SettledRehash pton st e)
    (hstep : st.step s pton e = some st') : st'.Inv s pton := by
  cases e with
  | accept ip sockhost =>
    obtain rfl := Option.some.inj hstep
    refine h.idle fun p => ?_
    rw [usersIn_append]
    rfl
  | register i =>
    obtain ⟨cl, hi, hstep⟩ := Option.bind_eq_some_iff.mp hstep
    split at hstep
    · rename_i hcl
      obtain ⟨g, hinc, rfl⟩ := Option.map_eq_some_iff.mp hstep
      refine h.counted rfl hinc fun p => usersIn_set hi ?_ p
      rw [hcl.2]
      decide
    · cases hstep
  | introduce sockhost =>
    obtain ⟨g, hinc, rfl⟩ := Option.map_eq_some_iff.mp hstep
    exact h.counted rfl hinc fun p => usersIn_append _ p
  | link i =>
    obtain ⟨cl, hi, hstep⟩ := Option.bind_eq_some_iff.mp hstep
    split at hstep
    · rename_i hcl
      obtain rfl := Option.some.inj hstep
      refine h.idle fun p => ?_
      rw [usersIn_set hi (by rw [hcl.2]; decide)]
      rfl
    · cases hstep
  | introduceServer =>
    obtain rfl := Option.some.inj hstep
    refine h.idle fun p => ?_
    rw [usersIn_append]
    rfl
  | exit i => exact h.exit hstep
  | unlink behind => exact State.Inv.unlink behind h hstep
  | rehash =>
    obtain ⟨g, hg, rfl⟩ := Option.map_eq_some_iff.mp hstep
    exact State.Inv.rehash (hok rfl) hg

/-- In every run that builds the tree anew only while no server and no unregistered connection
    has an address, the counts are right in every state. -/
theorem exact_of_settled (h : Reach (State.step s pton) (SettledRehash pton) State.start st) :
    st.Exact s pton :=
  State.Inv.exact (Reach.invariant (P := State.Inv s pton) State.inv_start
    (fun _ _ _ hinv hok hstep => hinv.step hok hstep) h)

end Runs

-- ============================================================================
-- Two runs
-- ============================================================================

/-- Blocks of 24 bits. -/
def slash24 : GlobalConf := ⟨24, by decide⟩

/-- `10.0.0.1`. -/
def ipText : Bytes := [49, 48, 46, 48, 46, 48, 46, 49]

/-- What that text stands for. -/
def ipPton (t : Bytes) : Option Ip := if t = ipText then some 0x0a000001 else none

/-- A state after some events. -/
def afterEvents (l : List Event) : State :=
  l.foldl (Reach.perform (State.step slash24 ipPton)) State.start

/-- A user of this server, and a tree built anew. -/
theorem exact_of_settled_one :
    (afterEvents [.accept 0x0a000001 ipText, .register 1, .rehash]).Exact slash24 ipPton := by
  have haccepted : Reach (State.step slash24 ipPton) (SettledRehash ipPton) State.start
      (afterEvents [.accept 0x0a000001 ipText]) := by
    refine Reach.init.performed (a := Event.accept 0x0a000001 ipText) fun h => ?_
    cases h
  have hregistered : Reach (State.step slash24 ipPton) (SettledRehash ipPton) State.start
      (afterEvents [.accept 0x0a000001 ipText, .register 1]) := by
    refine haccepted.performed (a := .register 1) fun h => ?_
    cases h
  have hrehashed : Reach (State.step slash24 ipPton) (SettledRehash ipPton) State.start
      (afterEvents [.accept 0x0a000001 ipText, .register 1, .rehash]) := by
    refine hregistered.performed (a := .rehash) fun _ => ?_
    unfold State.Settled
    decide
  exact exact_of_settled hrehashed

/-- A connection that is no user yet is counted when the tree is built anew. -/
theorem not_exact_unregistered : ¬ ∀ (s : GlobalConf) (pton : Bytes → Option Ip) (st : State),
    Reach (State.step s pton) anyStep State.start st → st.Exact s pton := by
  intro h
  have hexact := h slash24 ipPton (afterEvents [.accept 0x0a000001 ipText, .rehash])
    (Reach.performed_all _ .init)
  have hone : (afterEvents [.accept 0x0a000001 ipText, .rehash]).global.tree.entries.length = 1 := by
    decide
  have hnobody : ∀ cl ∈ (afterEvents [.accept 0x0a000001 ipText, .rehash]).clients, cl.status ≠ .user := by
    decide
  obtain ⟨n, hn⟩ := List.exists_mem_of_length_pos (Nat.lt_of_lt_of_eq Nat.one_pos hone.symm)
  obtain ⟨p, hp⟩ := Option.isSome_iff_exists.mp (Tree.mem_entries.mp hn).2
  obtain ⟨-, -, hpos⟩ := hexact.counted n hn p hp
  obtain ⟨cl, hcl, hwithin⟩ := List.countP_pos_iff.mp hpos
  rw [within_of_not_user (hnobody cl hcl)] at hwithin
  cases hwithin

end Bluebox.Clones
