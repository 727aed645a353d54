/-
  Bluebox.Dline.Families

  D-lines of both address families in one tree.

  The tree compares bytes and does not look at the family of a prefix.  So a client can be
  found under a D-line of the other family whose bits are the first bits of its address.
  For an IPv4 client the tree is searched down to bit 32 and one node further: there an IPv6
  prefix can stand alone, and is compared with the zeros behind the address.
-/
import Bluebox.Dline.Owned
import Bluebox.Patricia.Nested
import Bluebox.Patricia.Table

namespace Bluebox.Patricia

variable {β : Type} [Inhabited β] {maxbits : Nat}

-- ============================================================================
-- The node behind the end of an address
-- ============================================================================

/-- What is found behind the end of an address stands above all prefixes that go on from
    the address. -/
theorem bestStack_top {p : Pfx} {t : Tree β} (h : t.Wf maxbits) {m : Node β} {q : Pfx}
    (hq : m.key = some q) (hbit : p.bitlen ≤ m.bit) :
    ∀ {stack : List (Node β)}, m ∈ bestStack p t stack → m ∉ stack →
      ∀ e ∈ t.nodes, ∀ k, e.key = some k → p.bitlen ≤ k.bitlen → Agree p.bitlen k.addr p.addr →
        q.bitlen ≤ k.bitlen ∧ Agree q.bitlen k.addr q.addr := by
  induction t with
  | nil => exact fun _ _ e he => nomatch he
  | node n l r ihl ihr =>
    intro stack hm hnew e he k hk hlen hagree
    have hwf := h
    obtain ⟨hok, hl, hr⟩ := h
    rw [bestStack] at hm
    by_cases hlt : n.bit < p.bitlen
    · rw [if_pos hlt] at hm
      have hnew' : m ∉ (if n.key.isSome then n :: stack else stack) := by
        split
        · rw [List.mem_cons, not_or]
          refine ⟨?_, hnew⟩
          rintro rfl
          omega
        · exact hnew
      have hne : e ≠ n := by
        rintro rfl
        have := hok.own k hk
        omega
      have hside := hok.mem_side he hne hk (hagree n.bit hlt)
      cases hbit' : p.addr n.bit with
      | true =>
        rw [hbit', if_pos rfl] at hm hside
        exact ihr hr hm hnew' e hside k hk hlen hagree
      | false =>
        rw [hbit', if_neg Bool.false_ne_true] at hm hside
        exact ihl hl hm hnew' e hside k hk hlen hagree
    · rw [if_neg hlt] at hm
      have hmn : m = n := by
        split at hm
        · exact (List.mem_cons.mp hm).resolve_right hnew
        · exact absurd hm hnew
      subst hmn
      have hown := hok.own q hq
      have hle : m.bit ≤ k.bitlen := by
        rw [hwf.bit_of_key he hk]
        exact hok.head_le he
      refine ⟨hown ▸ hle, ?_⟩
      rw [hown]
      exact hok.agree e he k hk m (Tree.mem_nodes.mpr (Or.inl rfl)) q hq

/-- A prefix that covers an address, and above which no other goes on from the address, is
    found behind the end of the address. -/
theorem mem_bestStack_of_alone {p : Pfx} {t : Tree β} (h : t.Wf maxbits) {m : Node β}
    (hm : m ∈ t.nodes) {q : Pfx} (hq : m.key = some q) (hlen : p.bitlen ≤ q.bitlen)
    (hagree : Agree q.bitlen q.addr p.addr)
    (halone : ∀ e ∈ t.nodes, ∀ k, e.key = some k → p.bitlen ≤ k.bitlen →
      Agree p.bitlen k.addr p.addr → q.bitlen ≤ k.bitlen ∧ Agree q.bitlen k.addr q.addr)
    (stack : List (Node β)) : m ∈ bestStack p t stack := by
  induction t generalizing stack with
  | nil => cases hm
  | node n l r ihl ihr =>
    have hwf := h
    obtain ⟨hok, hl, hr⟩ := h
    have hmbit := hwf.bit_of_key hm hq
    rw [bestStack]
    by_cases hlt : n.bit < p.bitlen
    · rw [if_pos hlt]
      have hne : m ≠ n := by
        rintro rfl
        omega
      have hside := hok.mem_side hm hne hq (hagree n.bit (by omega))
      cases hbit : p.addr n.bit with
      | true =>
        rw [hbit, if_pos rfl] at hside
        rw [if_pos rfl]
        exact ihr hr hside (fun e he => halone e (Tree.mem_nodes.mpr (Or.inr (Or.inr he)))) _
      | false =>
        rw [hbit, if_neg Bool.false_ne_true] at hside
        rw [if_neg Bool.false_ne_true]
        exact ihl hl hside (fun e he => halone e (Tree.mem_nodes.mpr (Or.inr (Or.inl he)))) _
    · rw [if_neg hlt]
      -- what goes on from the address as far as this node goes on with the prefix
      have hgoes : ∀ e ∈ (Tree.node n l r).nodes, ∀ k, e.key = some k →
          q.bitlen ≤ k.bitlen ∧ Agree q.bitlen k.addr q.addr := by
        intro e he k hk
        refine halone e he k hk ?_ ?_
        · rw [hwf.bit_of_key he hk]
          exact Nat.le_trans (Nat.le_of_not_lt hlt) (hok.head_le he)
        · exact ((hok.agree e he k hk m hm q hq).mono (Nat.le_of_not_lt hlt)).trans
            (hagree.mono hlen)
      have hmn : m = n := by
        by_contra hne
        have hbelow : n.bit < m.bit := by
          obtain rfl | hm | hm := Tree.mem_nodes.mp hm
          · exact absurd rfl hne
          · exact (hok.left m hm).1
          · exact (hok.right m hm).1
        cases hk : n.key with
        | some k =>
          have := (hgoes n (Tree.mem_nodes.mpr (Or.inl rfl)) k hk).1
          have := hok.own k hk
          omega
        | none =>
          obtain ⟨-, hlnil, hrnil⟩ := hok.glue hk
          obtain rfl | hm | hm := Tree.mem_nodes.mp hm
          · exact hne rfl
          · obtain ⟨e, he, k, hk⟩ := hr.exists_entry hrnil
            have hsame := (hgoes e (Tree.mem_nodes.mpr (Or.inr (Or.inr he))) k hk).2 n.bit (by omega)
            rw [(hok.right e he).2 k hk, (hok.left m hm).2 q hq] at hsame
            cases hsame
          · obtain ⟨e, he, k, hk⟩ := hl.exists_entry hlnil
            have hsame := (hgoes e (Tree.mem_nodes.mpr (Or.inr (Or.inl he))) k hk).2 n.bit (by omega)
            rw [(hok.left e he).2 k hk, (hok.right m hm).2 q hq] at hsame
            cases hsame
      subst hmn
      rw [hq, if_pos Option.isSome_some]
      exact List.mem_cons_self

/-- A prefix that stands alone behind the end of an address, or a longer one, is found. -/
theorem searchBest_of_alone {p : Pfx} {t : Tree β} (h : t.Wf maxbits) {m : Node β}
    (hm : m ∈ t.nodes) {q : Pfx} (hq : m.key = some q) (hlen : p.bitlen ≤ q.bitlen)
    (hagree : Agree q.bitlen q.addr p.addr)
    (halone : ∀ e ∈ t.nodes, ∀ k, e.key = some k → p.bitlen ≤ k.bitlen →
      Agree p.bitlen k.addr p.addr → q.bitlen ≤ k.bitlen ∧ Agree q.bitlen k.addr q.addr) :
    ∃ m', searchBest t p = some m' ∧ q.bitlen ≤ m'.bit := by
  have hin := mem_bestStack_of_alone h hm hq hlen hagree halone []
  have hcovers : m.covers p.addr = true := Node.covers_iff.mpr ⟨q, hq, hagree⟩
  cases hs : searchBest t p with
  | none => exact absurd hcovers (List.find?_eq_none.mp hs m hin)
  | some m' =>
    refine ⟨m', rfl, ?_⟩
    rw [h.bit_of_key hm hq]
    exact find?_highest (bestStack_sorted p h List.Pairwise.nil nofun) hs hin hcovers

end Bluebox.Patricia

namespace Bluebox.Dline

open Bluebox.Lib Bluebox.Patricia

variable {cfg : Config}

-- ============================================================================
-- D-lines in the order in which they are installed
-- ============================================================================

/-- `add_dline` of a new D-line. -/
def World.install (cfg : Config) (w : World) (host : Bytes) : Option World :=
  (w.makeConf host false 0).addDline cfg w.nextConf

/-- The D-lines of these hosts, and no exemption. -/
def installed (cfg : Config) (hosts : List Bytes) : Option World :=
  hosts.foldlM (World.install cfg) World.start

/-- The masks of some hosts. -/
def masks (cfg : Config) (hosts : List Bytes) : List Netmask := hosts.filterMap (parseNetmask cfg.pton)

/-- The first bits of the address are those of the mask. -/
def Covers (mask : Netmask) (addr : IpAddr) : Prop :=
  Agree mask.bits.toNat mask.addr.bits addr.bits

/-- What is found for an address is of its family and covers it. -/
def OwnFamily (cfg : Config) (w : World) (addr : IpAddr) : Prop :=
  ∀ host, w.findDline addr = some host → ∃ mask, parseNetmask cfg.pton host = some mask ∧
    mask.addr.v6 = addr.v6 ∧ Covers mask addr

/-- A D-line of the other family with the first bits of the address gives way to a longer one
    of the family of the address, or to one that took its place; if it is longer than the
    address, something else goes on from the address. -/
def Undisturbed (cfg : Config) (hosts : List Bytes) (addr : IpAddr) : Prop :=
  ∀ before host after mask, hosts = before ++ host :: after →
    parseNetmask cfg.pton host = some mask → mask.addr.v6 ≠ addr.v6 → Covers mask addr →
    (mask.bits ≤ addr.width ∧ ∃ own, own.addr.v6 = addr.v6 ∧ Covers own addr ∧
      (own ∈ masks cfg hosts ∧ mask.bits < own.bits ∨
        own ∈ masks cfg after ∧ own.bits = mask.bits)) ∨
    (addr.width < mask.bits ∧ ∃ other ∈ masks cfg hosts, addr.width ≤ other.bits ∧
      Agree addr.width other.addr.bits addr.bits ∧
      ¬ (mask.bits ≤ other.bits ∧ Agree mask.bits.toNat other.addr.bits mask.addr.bits))

/-- The node of the last D-line with a prefix. -/
def Slot (cfg : Config) (hosts : List Bytes) (w : World) (n : Node (Option Nat)) : Prop :=
  ∃ c before host after mask, n.data = some c ∧ c < w.nextConf ∧ (w.confs c).host = host ∧
    hosts = before ++ host :: after ∧ parseNetmask cfg.pton host = some mask ∧
    n.Holds (newPrefix mask.addr mask.bits) ∧
    ∀ m ∈ masks cfg after, ¬ n.Holds (newPrefix m.addr m.bits)

/-- The tree holds the D-lines, each prefix the last one. -/
structure Installed (cfg : Config) (hosts : List Bytes) (w : World) : Prop where
  sound : w.dlineTree.Sound 128 w.nextNode
  exempt : w.elineTree = .nil
  slot : ∀ n ∈ w.dlineTree.entries, Slot cfg hosts w n
  has : ∀ mask ∈ masks cfg hosts, ∃ n ∈ w.dlineTree.entries,
    n.Holds (newPrefix mask.addr mask.bits)

theorem installed_start : Installed cfg [] World.start :=
  ⟨Tree.sound_nil, rfl, nofun, nofun⟩

/-- A prefix that a node holds beside another is the other. -/
theorem Node.Holds.trans {β : Type} {n e : Node β} {p q : Pfx} (hn : n.Holds p) (hn' : n.Holds q)
    (he : e.Holds p) : e.Holds q := by
  obtain ⟨k, hk, hlen, hagree⟩ := hn
  obtain ⟨k', hk', hlen', hagree'⟩ := hn'
  obtain rfl := Option.some.inj (hk.symm.trans hk')
  obtain ⟨j, hj, hjlen, hjagree⟩ := he
  have hpq : p.bitlen = q.bitlen := hlen.symm.trans hlen'
  refine ⟨j, hj, hjlen.trans hpq, ?_⟩
  rw [hpq] at hjagree hagree
  exact (hjagree.trans hagree.symm).trans hagree'

/-- One more D-line. -/
theorem Installed.install {hosts : List Bytes} {w : World} (h : Installed cfg hosts w) {host : Bytes}
    {mask : Netmask} (hmask : parseNetmask cfg.pton host = some mask) :
    ∃ w', w.install cfg host = some w' ∧ Installed cfg (hosts ++ [host]) w' := by
  obtain ⟨x, hx, hsound, e, -, hholds, hdata, hentries⟩ :=
    fill_slot h.sound (newPrefix_bitlen_le mask.addr mask.bits_le) w.nextConf
  have hhost : ((w.makeConf host false 0).confs w.nextConf).host = host := by
    unfold World.makeConf World.setConf
    dsimp only
    rw [Function.update_self]
  have hmasks : masks cfg (hosts ++ [host]) = masks cfg hosts ++ [mask] := by
    unfold masks
    rw [List.filterMap_append, List.filterMap_cons_some hmask, List.filterMap_nil]
  have hs : w.install cfg host = some
      { (w.makeConf host false 0).setConf w.nextConf
          { (w.makeConf host false 0).confs w.nextConf with pnode := some x.2 } with
        dlineTree := x.1.setData x.2 fun _ => some w.nextConf
        nextNode := w.nextNode + 2 } := by
    unfold World.install World.addDline
    rw [hhost, hmask]
    dsimp only
    rw [show (w.makeConf host false 0).nextNode = w.nextNode from rfl,
      show (w.makeConf host false 0).dlineTree = w.dlineTree from rfl, hx]
    rfl
  refine ⟨_, hs, hsound, h.exempt, ?_, ?_⟩
  · intro n hn
    obtain rfl | ⟨hn, hnot⟩ := (hentries n).mp hn
    · refine ⟨w.nextConf, hosts, host, [], mask, hdata, Nat.lt_succ_self _, ?_, rfl, hmask, hholds,
        nofun⟩
      unfold World.setConf
      dsimp only
      rw [Function.update_self]
      exact hhost
    · obtain ⟨c, before, host', after, mask', hc, hlt, hhost', hl, hmask', hn', hlast⟩ :=
        h.slot n hn
      refine ⟨c, before, host', after ++ [host], mask', hc, Nat.lt_succ_of_lt hlt, ?_, ?_, hmask',
        hn', ?_⟩
      · unfold World.setConf World.makeConf World.setConf
        dsimp only
        rw [Function.update_of_ne (Nat.ne_of_lt hlt), Function.update_of_ne (Nat.ne_of_lt hlt)]
        exact hhost'
      · rw [hl, List.append_assoc, List.cons_append]
      · intro m hm
        unfold masks at hm
        rw [List.filterMap_append, List.filterMap_cons_some hmask, List.filterMap_nil,
          List.mem_append, List.mem_singleton] at hm
        obtain hm | rfl := hm
        · exact hlast m hm
        · exact hnot
  · intro m hm
    rw [hmasks, List.mem_append, List.mem_singleton] at hm
    obtain hm | rfl := hm
    · obtain ⟨n, hn, hnm⟩ := h.has m hm
      by_cases hp : n.Holds (newPrefix mask.addr mask.bits)
      · exact ⟨e, (hentries e).mpr (Or.inl rfl), Node.Holds.trans hp hnm hholds⟩
      · exact ⟨n, (hentries n).mpr (Or.inr ⟨hn, hp⟩), hnm⟩
    · exact ⟨e, (hentries e).mpr (Or.inl rfl), hholds⟩

/-- All of them, one after the other. -/
theorem Installed.foldlM (more : List Bytes)
    (hmore : ∀ host ∈ more, ∃ mask, parseNetmask cfg.pton host = some mask) :
    ∀ {hosts : List Bytes} {w : World}, Installed cfg hosts w →
      ∃ w', more.foldlM (World.install cfg) w = some w' ∧ Installed cfg (hosts ++ more) w' := by
  induction more with
  | nil =>
    intro hosts w h
    refine ⟨w, rfl, ?_⟩
    rw [List.append_nil]
    exact h
  | cons host more ih =>
    intro hosts w h
    obtain ⟨mask, hmask⟩ := hmore host List.mem_cons_self
    obtain ⟨w', hw', h'⟩ := h.install hmask
    obtain ⟨w'', hw'', h''⟩ := ih (fun host hh => hmore host (List.mem_cons_of_mem _ hh)) h'
    refine ⟨w'', ?_, ?_⟩
    · rw [List.foldlM_cons, hw']
      exact hw''
    · rw [List.append_assoc, List.singleton_append] at h''
      exact h''

-- ============================================================================
-- Both families
-- ============================================================================

/-- A prefix of its family. -/
def IsPrefix (mask : Netmask) : Prop := 0 ≤ mask.bits ∧ mask.bits ≤ mask.addr.width

theorem IsPrefix.newPrefix {mask : Netmask} (h : IsPrefix mask) :
    newPrefix mask.addr mask.bits = ⟨mask.bits.toNat, mask.addr.bits⟩ := by
  unfold Bluebox.newPrefix
  rw [if_pos h.1]

/-- A node that holds a mask, by the mask's bits. -/
theorem IsPrefix.of_holds {mask : Netmask} (h : IsPrefix mask) {n : Node (Option Nat)}
    (hn : n.Holds (Bluebox.newPrefix mask.addr mask.bits)) :
    ∃ q, n.key = some q ∧ q.bitlen = mask.bits.toNat ∧ Agree q.bitlen q.addr mask.addr.bits := by
  rw [h.newPrefix] at hn
  obtain ⟨q, hq, hlen, hagree⟩ := hn
  exact ⟨q, hq, hlen, hlen ▸ hagree⟩

theorem IsPrefix.holds_iff {mask : Netmask} (h : IsPrefix mask) {n : Node (Option Nat)} {q : Pfx}
    (hq : n.key = some q) : n.Holds (Bluebox.newPrefix mask.addr mask.bits) ↔
      q.bitlen = mask.bits.toNat ∧ Agree mask.bits.toNat q.addr mask.addr.bits := by
  rw [h.newPrefix]
  constructor
  · rintro ⟨q', hq', hlen, hagree⟩
    obtain rfl := Option.some.inj (hq.symm.trans hq')
    exact ⟨hlen, hagree⟩
  · rintro ⟨hlen, hagree⟩
    exact ⟨q, hq, hlen, hagree⟩

theorem mem_masks {hosts : List Bytes} {host : Bytes} {mask : Netmask} (h : host ∈ hosts)
    (hmask : parseNetmask cfg.pton host = some mask) : mask ∈ masks cfg hosts :=
  List.mem_filterMap.mpr ⟨host, h, hmask⟩

/-- One of two places in a list comes first. -/
theorem split_cases {α : Type} {before before' after after' : List α} {a a' : α}
    (h : before ++ a :: after = before' ++ a' :: after') : a = a' ∨ a' ∈ after ∨ a ∈ after' := by
  obtain ⟨l, hl, hl'⟩ | ⟨l, hl, hl'⟩ := List.append_eq_append_iff.mp h
  · cases l with
    | nil => exact Or.inl (List.cons.inj hl').1
    | cons b l =>
      rw [List.cons_append] at hl'
      right
      left
      rw [(List.cons.inj hl').2]
      exact List.mem_append_right _ List.mem_cons_self
  · cases l with
    | nil => exact Or.inl (List.cons.inj hl').1.symm
    | cons b l =>
      rw [List.cons_append] at hl'
      right
      right
      rw [(List.cons.inj hl').2]
      exact List.mem_append_right _ List.mem_cons_self

section Families

variable {hosts : List Bytes} {w : World} {addr : IpAddr}

theorem Installed.findDline (h : Installed cfg hosts w) (addr : IpAddr) :
    w.findDline addr =
      ((rbMatchIp w.dlineTree addr).bind Node.data).map fun c => (w.confs c).host := by
  unfold World.findDline
  rw [h.exempt]
  rfl

/-- What the tree finds is the last D-line with its prefix. -/
theorem Installed.found (h : Installed cfg hosts w)
    (hpref : ∀ mask ∈ masks cfg hosts, IsPrefix mask) {n : Node (Option Nat)}
    (hn : rbMatchIp w.dlineTree addr = some n) :
    ∃ before host after mask, w.findDline addr = some host ∧ hosts = before ++ host :: after ∧
      parseNetmask cfg.pton host = some mask ∧ IsPrefix mask ∧ Covers mask addr ∧
      n.bit = mask.bits.toNat ∧ n.Holds (newPrefix mask.addr mask.bits) ∧
      ∀ m ∈ masks cfg after, ¬ n.Holds (newPrefix m.addr m.bits) := by
  obtain ⟨hentry, hcovers⟩ := searchBest_some hn
  obtain ⟨c, before, host, after, mask, hc, -, hhost, hl, hmask, hholds, hlast⟩ := h.slot n hentry
  have hin : host ∈ hosts := by
    rw [hl]
    exact List.mem_append_right _ List.mem_cons_self
  have hp := hpref mask (mem_masks hin hmask)
  obtain ⟨q, hq, hlen, hagree⟩ := hp.of_holds hholds
  obtain ⟨q', hq', hagree'⟩ := Node.covers_iff.mp hcovers
  obtain rfl := Option.some.inj (hq.symm.trans hq')
  refine ⟨before, host, after, mask, ?_, hl, hmask, hp, ?_, ?_, hholds, hlast⟩
  · rw [h.findDline, hn, Option.bind_some, hc, Option.map_some, hhost]
  · unfold Covers
    rw [← hlen]
    exact hagree.symm.trans hagree'
  · rw [← hlen]
    exact (h.sound.wf.bit_of_key (Tree.mem_entries.mp hentry).1 hq).symm

/-- A D-line that covers an address of its length or more is found, or a longer one. -/
theorem Installed.found_of_covers (h : Installed cfg hosts w)
    (hpref : ∀ mask ∈ masks cfg hosts, IsPrefix mask) {mask : Netmask}
    (hmask : mask ∈ masks cfg hosts) (hcovers : Covers mask addr) (hle : mask.bits ≤ addr.width) :
    ∃ n, rbMatchIp w.dlineTree addr = some n ∧ mask.bits.toNat ≤ n.bit := by
  obtain ⟨e, he, hholds⟩ := h.has mask hmask
  have hmem := (Tree.mem_entries.mp he).1
  obtain ⟨q, hq, hlen, hagree⟩ := (hpref mask hmask).of_holds hholds
  have hqa : Agree q.bitlen q.addr addr.bits := by
    unfold Covers at hcovers
    rw [← hlen] at hcovers
    exact hagree.trans hcovers
  have hwidth : q.bitlen ≤ addr.width := by omega
  cases hn : rbMatchIp w.dlineTree addr with
  | none => exact absurd hqa (searchBest_none h.sound.wf hn hmem hq hwidth)
  | some n =>
    refine ⟨n, rfl, ?_⟩
    rw [← hlen]
    exact searchBest_longest h.sound.wf hn hmem hq hwidth hqa

theorem Installed.ownFamily_of_undisturbed (h : Installed cfg hosts w)
    (hpref : ∀ mask ∈ masks cfg hosts, IsPrefix mask) (hu : Undisturbed cfg hosts addr) :
    OwnFamily cfg w addr := by
  intro host hfind
  have hsome : ∃ n, rbMatchIp w.dlineTree addr = some n := by
    rw [h.findDline] at hfind
    cases hn : rbMatchIp w.dlineTree addr with
    | none =>
      rw [hn] at hfind
      cases hfind
    | some n => exact ⟨n, rfl⟩
  obtain ⟨n, hn⟩ := hsome
  obtain ⟨before, host', after, mask, hfind', hl, hmask, hp, hcovers, hbit, hholds, hlast⟩ :=
    h.found hpref hn
  obtain rfl := Option.some.inj (hfind.symm.trans hfind')
  refine ⟨mask, hmask, ?_, hcovers⟩
  by_contra hother
  obtain ⟨q, hq, hlen, hagree⟩ := hp.of_holds hholds
  obtain ⟨hle, own, hown, howncovers, hbeats⟩ | ⟨hlt, other, hin, hge, hoa, hnot⟩ :=
    hu before host after mask hl hmask hother hcovers
  · obtain ⟨hin, hmore⟩ | ⟨hin, hsame⟩ := hbeats
    · -- a longer one would be found
      have hopref := hpref own hin
      have hwidth : own.bits ≤ addr.width := by
        unfold IpAddr.width
        rw [← hown]
        exact hopref.2
      obtain ⟨n', hn', hmin⟩ := h.found_of_covers hpref hin howncovers hwidth
      obtain rfl := Option.some.inj (hn.symm.trans hn')
      have := hp.1
      omega
    · -- one that came later has its place
      have hopref := hpref own (by
        rw [hl]
        unfold masks at hin ⊢
        rw [List.filterMap_append, List.mem_append, List.filterMap_cons_some hmask]
        exact Or.inr (List.mem_cons_of_mem _ hin))
      refine hlast own hin ((hopref.holds_iff hq).mpr ⟨by rw [hsame]; exact hlen, ?_⟩)
      unfold Covers at hcovers howncovers
      rw [hsame] at howncovers ⊢
      exact ((hlen ▸ hagree).trans hcovers).trans howncovers.symm
  · obtain ⟨e, he, heholds⟩ := h.has other hin
    obtain ⟨k, hk, hklen, hkagree⟩ := (hpref other hin).of_holds heholds
    have hstack := List.mem_of_find?_eq_some hn
    have htop := bestStack_top h.sound.wf hq (p := ⟨addr.width, addr.bits⟩)
      (by show addr.width ≤ n.bit; omega) hstack List.not_mem_nil e (Tree.mem_entries.mp he).1 k hk
      (by show addr.width ≤ k.bitlen; omega) ?_
    · have hle := (hpref other hin).1
      refine hnot ⟨by omega, ?_⟩
      have hka : Agree q.bitlen k.addr other.addr.bits := hkagree.mono htop.1
      rw [← hlen]
      exact (hka.symm.trans htop.2).trans hagree
    · show Agree addr.width k.addr addr.bits
      exact (hkagree.mono (by omega)).trans hoa

theorem Installed.undisturbed_of_ownFamily (h : Installed cfg hosts w)
    (hpref : ∀ mask ∈ masks cfg hosts, IsPrefix mask) (hu : OwnFamily cfg w addr) :
    Undisturbed cfg hosts addr := by
  intro before host after mask hl hmask hother hcovers
  have hhost : host ∈ hosts := by
    rw [hl]
    exact List.mem_append_right _ List.mem_cons_self
  have hin := mem_masks hhost hmask
  have hp := hpref mask hin
  by_cases hle : mask.bits ≤ addr.width
  · left
    refine ⟨hle, ?_⟩
    obtain ⟨n, hn, hmin⟩ := h.found_of_covers hpref hin hcovers hle
    obtain ⟨before', host', after', own, hfind, hl', hown, hopref, howncovers, hbit, hholds, hlast⟩ :=
      h.found hpref hn
    obtain ⟨own', hown', hfamily, -⟩ := hu host' hfind
    obtain rfl := Option.some.inj (hown.symm.trans hown')
    refine ⟨own, hfamily, howncovers, ?_⟩
    have hhost' : host' ∈ hosts := by
      rw [hl']
      exact List.mem_append_right _ List.mem_cons_self
    by_cases hmore : mask.bits < own.bits
    · exact Or.inl ⟨mem_masks hhost' hown, hmore⟩
    · right
      have hopos := hopref.1
      have hsame : own.bits = mask.bits := by
        have := hp.1
        omega
      refine ⟨?_, hsame⟩
      obtain heq | hafter | hafter := split_cases (hl.symm.trans hl')
      · rw [heq, hown] at hmask
        rw [Option.some.inj hmask] at hfamily
        exact absurd hfamily hother
      · exact mem_masks hafter hown
      · obtain ⟨q, hq, hlen, hagree⟩ := hopref.of_holds hholds
        refine absurd ((hp.holds_iff hq).mpr ⟨by rw [← hsame]; exact hlen, ?_⟩)
          (hlast mask (mem_masks hafter hmask))
        unfold Covers at hcovers howncovers
        rw [hsame] at hlen howncovers
        exact ((hlen ▸ hagree).trans howncovers).trans hcovers.symm
  · right
    refine ⟨by omega, ?_⟩
    by_contra hnone
    obtain ⟨e, he, heholds⟩ := h.has mask hin
    obtain ⟨q, hq, hlen, hagree⟩ := hp.of_holds heholds
    have hqa : Agree q.bitlen q.addr addr.bits := by
      unfold Covers at hcovers
      rw [← hlen] at hcovers
      exact hagree.trans hcovers
    -- every prefix that goes on from the address goes on with this one
    have halone : ∀ f ∈ w.dlineTree.nodes, ∀ k, f.key = some k → addr.width ≤ k.bitlen →
        Agree addr.width k.addr addr.bits → q.bitlen ≤ k.bitlen ∧ Agree q.bitlen k.addr q.addr := by
      intro f hf k hk hklen hkagree
      obtain ⟨-, before', other', after', other, -, -, -, hl', hother', hfholds, -⟩ :=
        h.slot f (Tree.mem_entries.mpr ⟨hf, by rw [hk]; rfl⟩)
      have hoin : other ∈ masks cfg hosts := by
        refine mem_masks ?_ hother'
        rw [hl']
        exact List.mem_append_right _ List.mem_cons_self
      obtain ⟨k', hk', hlen', hagree'⟩ := (hpref other hoin).of_holds hfholds
      obtain rfl := Option.some.inj (hk.symm.trans hk')
      have hgoes : mask.bits ≤ other.bits ∧
          Agree mask.bits.toNat other.addr.bits mask.addr.bits := by
        by_contra hnot
        have hopos := (hpref other hoin).1
        refine hnone ⟨other, hoin, by omega, ?_, hnot⟩
        exact (hagree'.mono hklen).symm.trans hkagree
      have hqk : q.bitlen ≤ k.bitlen := by
        have := hp.1
        omega
      refine ⟨hqk, ?_⟩
      have h2 := hgoes.2
      rw [← hlen] at h2
      exact ((hagree'.mono hqk).trans h2).trans hagree.symm
    obtain ⟨n, hn, hmin⟩ := searchBest_of_alone (p := ⟨addr.width, addr.bits⟩) h.sound.wf
      (Tree.mem_entries.mp he).1 hq (by show addr.width ≤ q.bitlen; omega) hqa halone
    obtain ⟨before', host', after', own, hfind, -, hown, hopref, -, hbit, -, -⟩ := h.found hpref hn
    obtain ⟨own', hown', hfamily, -⟩ := hu host' hfind
    obtain rfl := Option.some.inj (hown.symm.trans hown')
    have hwidth : own.bits ≤ addr.width := by
      unfold IpAddr.width
      rw [← hfamily]
      exact hopref.2
    omega

end Families

/-- D-lines can be installed, and what is found for an address is of its family iff no D-line
    of the other family with the first bits of the address comes before. -/
theorem ownFamily_iff_undisturbed (cfg : Config) (hosts : List Bytes)
    (hpref : ∀ host ∈ hosts, ∃ mask, parseNetmask cfg.pton host = some mask ∧ IsPrefix mask)
    (addr : IpAddr) :
    ∃ w, installed cfg hosts = some w ∧ (OwnFamily cfg w addr ↔ Undisturbed cfg hosts addr) := by
  obtain ⟨w, hw, h⟩ := Installed.foldlM hosts
    (fun host hin => (hpref host hin).imp fun mask hmask => hmask.1) (@installed_start cfg)
  rw [List.nil_append] at h
  have hall : ∀ mask ∈ masks cfg hosts, IsPrefix mask := by
    intro mask hmask
    obtain ⟨host, hin, hparse⟩ := List.mem_filterMap.mp hmask
    obtain ⟨mask', hparse', hp⟩ := hpref host hin
    exact Option.some.inj (hparse'.symm.trans hparse) ▸ hp
  exact ⟨w, hw, h.undisturbed_of_ownFamily hall, h.ownFamily_of_undisturbed hall⟩

/-- Texts of one address each: `10.0.0.0` and `a00::`. -/
def twoFamilies : Config where
  pton := fun text =>
    if text = [49, 48, 46, 48, 46, 48, 46, 48] then some ⟨false, fun i => decide (i = 4 ∨ i = 6)⟩
    else if text = [97, 48, 48, 58, 58] then some ⟨true, fun i => decide (i = 4 ∨ i = 6)⟩
    else none
  nonRedundantKlines := false

/-- `10.0.0.0/8` and, later, `a00::/8`: an IPv6 client is found under its own D-line. -/
theorem ownFamily_two : ∃ w,
    installed twoFamilies [[49, 48, 46, 48, 46, 48, 46, 48, 47, 56], [97, 48, 48, 58, 58, 47, 56]] =
      some w ∧ OwnFamily twoFamilies w ⟨true, fun i => decide (i = 4 ∨ i = 6)⟩ := by
  have hv4 : parseNetmask twoFamilies.pton [49, 48, 46, 48, 46, 48, 46, 48, 47, 56] =
      some ⟨false, ⟨false, fun i => decide (i = 4 ∨ i = 6)⟩, 8, by decide⟩ := rfl
  have hv6 : parseNetmask twoFamilies.pton [97, 48, 48, 58, 58, 47, 56] =
      some ⟨true, ⟨true, fun i => decide (i = 4 ∨ i = 6)⟩, 8, by decide⟩ := rfl
  obtain ⟨w, hw, hiff⟩ := ownFamily_iff_undisturbed twoFamilies
    [[49, 48, 46, 48, 46, 48, 46, 48, 47, 56], [97, 48, 48, 58, 58, 47, 56]]
    (by
      intro host hin
      obtain rfl | hin := List.mem_cons.mp hin
      · exact ⟨_, hv4, by decide, by decide⟩
      · rw [List.mem_singleton.mp hin]
        exact ⟨_, hv6, by decide, by decide⟩)
    ⟨true, fun i => decide (i = 4 ∨ i = 6)⟩
  refine ⟨w, hw, hiff.mpr ?_⟩
  intro before host after mask hl hmask hother _
  cases before with
  | nil =>
    obtain ⟨rfl, rfl⟩ := List.cons.inj hl
    obtain rfl := Option.some.inj (hv4.symm.trans hmask)
    refine Or.inl ⟨by decide, _, rfl, fun i _ => rfl, Or.inr ⟨mem_masks List.mem_cons_self hv6, rfl⟩⟩
  | cons b before =>
    cases before with
    | nil =>
      obtain ⟨rfl, -⟩ := List.cons.inj (List.cons.inj hl).2
      obtain rfl := Option.some.inj (hv6.symm.trans hmask)
      exact absurd rfl hother
    | cons b' before =>
      have htail := (List.cons.inj (List.cons.inj hl).2).2
      cases before with
      | nil => cases htail
      | cons b'' before => cases htail

/-- With `10.0.0.0/8` alone, the IPv6 client is found under it. -/
theorem not_ownFamily_v4_for_v6 : ¬ ∀ (cfg : Config) (hosts : List Bytes),
    (∀ host ∈ hosts, ∃ mask, parseNetmask cfg.pton host = some mask ∧ IsPrefix mask) →
    ∀ (addr : IpAddr) (w : World), installed cfg hosts = some w → OwnFamily cfg w addr := by
  intro h
  have hv4 : parseNetmask twoFamilies.pton [49, 48, 46, 48, 46, 48, 46, 48, 47, 56] =
      some ⟨false, ⟨false, fun i => decide (i = 4 ∨ i = 6)⟩, 8, by decide⟩ := rfl
  have hown := h twoFamilies [[49, 48, 46, 48, 46, 48, 46, 48, 47, 56]]
    (by
      intro host hin
      rw [List.mem_singleton.mp hin]
      exact ⟨_, hv4, by decide, by decide⟩)
    ⟨true, fun i => decide (i = 4 ∨ i = 6)⟩ _ rfl [49, 48, 46, 48, 46, 48, 46, 48, 47, 56]
    (by decide)
  obtain ⟨mask, hmask, hfamily, -⟩ := hown
  obtain rfl := Option.some.inj (hv4.symm.trans hmask)
  cases hfamily

end Bluebox.Dline
