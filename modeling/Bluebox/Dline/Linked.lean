/-
  Bluebox.Dline.Linked

  What a reload does to the D-lines in force.  The links between D-lines and nodes
  that it relies on hold of the tree alone: the lists of temporary D-lines do not
  matter to it.
-/
import Bluebox.Dline.Owned

namespace Bluebox.Dline

open Bluebox.Lib Bluebox.Patricia

variable {cfg : Config} {w : World}

/-- A D-line in force has the node of its prefix, and points to it. -/
structure World.Linked (cfg : Config) (w : World) : Prop where
  sound : w.dlineTree.Sound 128 w.nextNode
  held : ∀ n ∈ w.dlineTree.entries, ∃ c mask, n.data = some c ∧ c < w.nextConf ∧
    (w.confs c).pnode = some n.loc ∧ parseNetmask cfg.pton (w.confs c).host = some mask ∧
    n.Holds (newPrefix mask.addr mask.bits)

theorem World.linked_start : World.start.Linked cfg where
  sound := Tree.sound_nil
  held := nofun

theorem World.Linked.lt_of_inForce (h : w.Linked cfg) {c : Nat} (hc : w.InForce c) :
    c < w.nextConf := by
  obtain ⟨n, hn, hdata⟩ := hc
  obtain ⟨d, mask, hd, hlt, -⟩ := h.held n hn
  rw [hdata] at hd
  rwa [← Option.some.inj hd] at hlt

/-- The D-line with the prefix of a host. -/
theorem World.Linked.heldAt_eq_some (h : w.Linked cfg) {host : Bytes} {mask : Netmask}
    (hmask : parseNetmask cfg.pton host = some mask) {c : Nat} :
    w.heldAt cfg host = some c ↔
      ∃ n ∈ w.dlineTree.entries, n.Holds (newPrefix mask.addr mask.bits) ∧ n.data = some c := by
  unfold World.heldAt
  rw [hmask, Option.bind_some]
  exact dataAt_eq_some h.sound

/-- Two hosts have the same prefix, and so the same slot of the tree. -/
def SameSlot (cfg : Config) (host host' : Bytes) : Prop :=
  ∃ mask mask', parseNetmask cfg.pton host = some mask ∧
    parseNetmask cfg.pton host' = some mask' ∧
    (newPrefix mask.addr mask.bits).bitlen = (newPrefix mask'.addr mask'.bits).bitlen ∧
    Agree (newPrefix mask.addr mask.bits).bitlen (newPrefix mask.addr mask.bits).addr
      (newPrefix mask'.addr mask'.bits).addr

/-- The D-line with the prefix of a host is the one in force whose host has the same
    slot. -/
theorem World.Linked.heldAt_iff (h : w.Linked cfg) {host : Bytes} {c : Nat} :
    w.heldAt cfg host = some c ↔ w.InForce c ∧ SameSlot cfg (w.confs c).host host := by
  constructor
  · intro hheld
    obtain ⟨mask, hmask, -⟩ := Option.bind_eq_some_iff.mp hheld
    obtain ⟨n, hn, hholds, hdata⟩ := (h.heldAt_eq_some hmask).mp hheld
    obtain ⟨d, mask', hd, -, -, hmask', hholds'⟩ := h.held n hn
    rw [hdata] at hd
    obtain rfl := Option.some.inj hd
    obtain ⟨q, hq, hlen, hagree⟩ := hholds
    obtain ⟨q', hq', hlen', hagree'⟩ := hholds'
    rw [hq] at hq'
    obtain rfl := Option.some.inj hq'
    refine ⟨⟨n, hn, hdata⟩, mask', mask, hmask', hmask, hlen'.symm.trans hlen, ?_⟩
    refine hagree'.symm.trans ?_
    rw [← hlen', hlen]
    exact hagree
  · rintro ⟨⟨n, hn, hdata⟩, mask', mask, hmask', hmask, hlen, hagree⟩
    obtain ⟨d, mask'', hd, -, -, hmask'', q, hq, hlen', hagree'⟩ := h.held n hn
    rw [hdata] at hd
    obtain rfl := Option.some.inj hd
    rw [hmask'] at hmask''
    obtain rfl := Option.some.inj hmask''
    refine (h.heldAt_eq_some hmask).mpr ⟨n, hn, ⟨q, hq, hlen'.trans hlen, ?_⟩, hdata⟩
    rw [← hlen]
    exact hagree'.trans hagree

/-- A D-line in force is the one with the prefix of its host. -/
theorem World.Linked.heldAt_self (h : w.Linked cfg) {c : Nat} (hc : w.InForce c) :
    w.heldAt cfg (w.confs c).host = some c := by
  obtain ⟨n, hn, hdata⟩ := hc
  obtain ⟨d, mask, hd, -, -, hmask, hholds⟩ := h.held n hn
  rw [hdata] at hd
  obtain rfl := Option.some.inj hd
  exact (h.heldAt_eq_some hmask).mpr ⟨n, hn, hholds, hdata⟩

/-- `remove_dline` of a D-line in force. -/
theorem World.Linked.removeDline (h : w.Linked cfg) {c : Nat} {n : Node (Option Nat)}
    (hn : n ∈ w.dlineTree.entries) (hc : n.data = some c) :
    w.removeDline c = some { w with dlineTree := remove n.loc w.dlineTree } ∧
      World.Linked cfg { w with dlineTree := remove n.loc w.dlineTree } := by
  obtain ⟨d, mask, hd, -, hloc, -⟩ := h.held n hn
  rw [hc] at hd
  obtain rfl := Option.some.inj hd
  refine ⟨?_, (h.sound.remove hn).1, fun m hm => ?_⟩
  · unfold World.removeDline
    rw [hloc, Option.bind_some, h.sound.deref (Tree.mem_entries.mp hn).1]
    rfl
  · exact h.held m ((mem_remove h.sound hn m).mp hm).1

/-- The walk of `remove_perm_dlines`; by induction over the nodes still to come. -/
theorem World.Linked.removePerm_foldlM {l : List (Node (Option Nat))} (hl : l.Nodup) :
    ∀ {w : World}, w.Linked cfg → (∀ n ∈ l, n ∈ w.dlineTree.entries) →
      ∃ w', l.foldlM World.removePerm w = some w' ∧ w'.Linked cfg ∧ w'.confs = w.confs ∧
        w'.nextConf = w.nextConf ∧
        ∀ n, n ∈ w'.dlineTree.entries ↔ n ∈ w.dlineTree.entries ∧
          (n ∈ l → ∀ c, n.data = some c → (w.confs c).temporary = true) := by
  induction l with
  | nil => exact fun {w} h _ => ⟨w, rfl, h, rfl, rfl, fun n => by simp⟩
  | cons n l ih =>
    intro w h hin
    obtain ⟨hout, hl⟩ := List.nodup_cons.mp hl
    have hn := hin n List.mem_cons_self
    obtain ⟨c, -, hdata, -⟩ := h.held n hn
    rw [List.foldlM_cons]
    by_cases htemporary : (w.confs c).temporary = true
    · have hstep : w.removePerm n = some w := by
        unfold World.removePerm
        rw [hdata, Option.bind_some, if_pos htemporary]
      obtain ⟨w', hs, hlinked, hconfs, hnext, hmem⟩ :=
        ih hl h fun m hm => hin m (List.mem_cons_of_mem n hm)
      refine ⟨w', by rw [hstep]; exact hs, hlinked, hconfs, hnext, fun m => ?_⟩
      rw [hmem m]
      refine and_congr_right fun _ => ⟨fun hall hm => ?_, fun hall hm => hall (List.mem_cons_of_mem n hm)⟩
      obtain rfl | hm := List.mem_cons.mp hm
      · intro d hd
        rw [hdata] at hd
        rwa [← Option.some.inj hd]
      · exact hall hm
    · obtain ⟨hremove, hlinked⟩ := h.removeDline hn hdata
      have hstep : w.removePerm n = some { w with dlineTree := remove n.loc w.dlineTree } := by
        unfold World.removePerm
        rw [hdata, Option.bind_some, if_neg htemporary, hremove]
      have hkept := mem_remove h.sound hn
      obtain ⟨w', hs, hlinked', hconfs, hnext, hmem⟩ := ih hl hlinked fun m hm =>
        (hkept m).mpr ⟨hin m (List.mem_cons_of_mem n hm), fun hmn => hout (hmn ▸ hm)⟩
      refine ⟨w', by rw [hstep]; exact hs, hlinked', hconfs, hnext, fun m => ?_⟩
      rw [hmem m, hkept m]
      constructor
      · rintro ⟨⟨hm, hne⟩, hall⟩
        exact ⟨hm, fun hml => hall ((List.mem_cons.mp hml).resolve_left hne)⟩
      · rintro ⟨hm, hall⟩
        refine ⟨⟨hm, ?_⟩, fun hml => hall (List.mem_cons_of_mem n hml)⟩
        rintro rfl
        exact htemporary (hall List.mem_cons_self c hdata)

/-- `remove_perm_dlines` leaves the temporary D-lines. -/
theorem World.Linked.removePermDlines (h : w.Linked cfg) :
    ∃ w', w.removePermDlines = some w' ∧ w'.Linked cfg ∧ w'.confs = w.confs ∧
      w'.nextConf = w.nextConf ∧
      ∀ c, w'.InForce c ↔ w.InForce c ∧ (w.confs c).temporary = true := by
  have hnodup : w.dlineTree.entries.Nodup := (List.Nodup.of_map _ h.sound.nodup).filter _
  obtain ⟨w', hs, hlinked, hconfs, hnext, hmem⟩ :=
    World.Linked.removePerm_foldlM hnodup h fun n hn => hn
  refine ⟨w', hs, hlinked, hconfs, hnext, fun c => ⟨?_, ?_⟩⟩
  · rintro ⟨n, hn, hdata⟩
    obtain ⟨hn, hall⟩ := (hmem n).mp hn
    exact ⟨⟨n, hn, hdata⟩, hall hn c hdata⟩
  · rintro ⟨⟨n, hn, hdata⟩, htemporary⟩
    refine ⟨n, (hmem n).mpr ⟨hn, fun _ d hd => ?_⟩, hdata⟩
    rw [hdata] at hd
    rwa [← Option.some.inj hd]

/-- A D-line of `bandb_pending` takes the slot of its prefix. -/
theorem World.Linked.addRow (h : w.Linked cfg) {host : Bytes} (locked : Bool) {mask : Netmask}
    (hmask : parseNetmask cfg.pton host = some mask) :
    ∃ w', w.addRow cfg (host, locked) = some w' ∧ w'.Linked cfg ∧
      (w'.confs w.nextConf).host = host ∧ (w'.confs w.nextConf).temporary = false ∧
      (∀ d, d ≠ w.nextConf → w'.confs d = w.confs d) ∧
      ∀ c, w'.InForce c ↔ c = w.nextConf ∨ w.InForce c ∧ w.heldAt cfg host ≠ some c := by
  obtain ⟨x, hx, hsound, e, hloc, hholds, hdata, hmem⟩ :=
    fill_slot h.sound (newPrefix_bitlen_le mask.addr mask.bits_le) w.nextConf
  have hself : (w.makeConf host locked 0).confs w.nextConf = ⟨host, false, locked, .min, 0, none⟩ :=
    Function.update_self ..
  have hadd : w.addRow cfg (host, locked) = some
      { (w.makeConf host locked 0).setConf w.nextConf
          ⟨host, false, locked, .min, 0, some x.2⟩ with
        dlineTree := x.1.setData x.2 fun _ => some w.nextConf
        nextNode := w.nextNode + 2 } := by
    unfold World.addRow
    rw [hmask]
    unfold World.addDline
    rw [hself]
    dsimp only
    rw [hmask]
    dsimp only [World.makeConf, World.setConf]
    rw [hx]
    rfl
  have hnew : ((w.makeConf host locked 0).setConf w.nextConf
      ⟨host, false, locked, .min, 0, some x.2⟩).confs w.nextConf
        = ⟨host, false, locked, .min, 0, some x.2⟩ := Function.update_self ..
  refine ⟨_, hadd, ⟨hsound, fun n hn => ?_⟩, ?_, ?_, fun d hd => ?_, fun c => ⟨?_, ?_⟩⟩
  · obtain rfl | ⟨hn, -⟩ := (hmem n).mp hn
    · refine ⟨w.nextConf, mask, hdata, Nat.lt_succ_self _, ?_, ?_, hholds⟩
      · rw [hloc]
        exact congrArg Conf.pnode hnew
      · rw [← hmask]
        exact congrArg (fun k => parseNetmask cfg.pton (Conf.host k)) hnew
    · obtain ⟨d, mask', hd, hlt, hpnode, hmask', hholds'⟩ := h.held n hn
      have hold : ((w.makeConf host locked 0).setConf w.nextConf
          ⟨host, false, locked, .min, 0, some x.2⟩).confs d = w.confs d :=
        (Function.update_of_ne (Nat.ne_of_lt hlt) ..).trans
          (Function.update_of_ne (Nat.ne_of_lt hlt) ..)
      refine ⟨d, mask', hd, Nat.lt_succ_of_lt hlt, ?_, ?_, hholds'⟩
      · rw [← hpnode]
        exact congrArg Conf.pnode hold
      · rw [← hmask']
        exact congrArg (fun k => parseNetmask cfg.pton (Conf.host k)) hold
  · exact congrArg Conf.host hnew
  · exact congrArg Conf.temporary hnew
  · exact (Function.update_of_ne hd ..).trans (Function.update_of_ne hd ..)
  · rintro ⟨n, hn, hd⟩
    obtain rfl | ⟨hn, hnot⟩ := (hmem n).mp hn
    · rw [hdata] at hd
      exact Or.inl (Option.some.inj hd).symm
    · refine Or.inr ⟨⟨n, hn, hd⟩, fun hheld => hnot ?_⟩
      obtain ⟨m, hm, hholds', hd'⟩ := (h.heldAt_eq_some hmask).mp hheld
      obtain ⟨d, mask', hd₁, -, hpnode, -⟩ := h.held n hn
      obtain ⟨d', mask'', hd₂, -, hpnode', -⟩ := h.held m hm
      rw [hd] at hd₁
      rw [hd'] at hd₂
      obtain rfl := Option.some.inj hd₁
      obtain rfl := Option.some.inj hd₂
      rw [hpnode] at hpnode'
      rwa [h.sound.eq_of_loc (Tree.mem_entries.mp hn).1 (Tree.mem_entries.mp hm).1
        (Option.some.inj hpnode')]
  · rintro (rfl | ⟨⟨n, hn, hd⟩, hne⟩)
    · exact ⟨e, (hmem e).mpr (Or.inl rfl), hdata⟩
    · refine ⟨n, (hmem n).mpr (Or.inr ⟨hn, fun hp => hne ?_⟩), hd⟩
      exact (h.heldAt_eq_some hmask).mpr ⟨n, hn, hp, hd⟩

-- ============================================================================
-- The hosts in force
-- ============================================================================

/-- The hosts of the temporary or permanent D-lines in force. -/
def World.hosts (w : World) (temporary : Bool) : Set Bytes :=
  {host | ∃ c, w.InForce c ∧ (w.confs c).temporary = temporary ∧ (w.confs c).host = host}

/-- `remove_perm_dlines` and the D-lines by their hosts. -/
theorem World.Linked.removePermDlines_hosts (h : w.Linked cfg) :
    ∃ w', w.removePermDlines = some w' ∧ w'.Linked cfg ∧ w'.hosts true = w.hosts true ∧
      w'.hosts false = ∅ ∧ ∀ host, w'.tempAt cfg host = w.tempAt cfg host := by
  obtain ⟨w', hs, hlinked, hconfs, -, hforce⟩ := h.removePermDlines
  refine ⟨w', hs, hlinked, ?_, ?_, fun host => ?_⟩
  · ext host
    constructor
    · rintro ⟨c, hc, ht, rfl⟩
      rw [hconfs] at ht ⊢
      exact ⟨c, ((hforce c).mp hc).1, ht, rfl⟩
    · rintro ⟨c, hc, ht, rfl⟩
      refine ⟨c, (hforce c).mpr ⟨hc, ht⟩, ?_, ?_⟩
      · rw [hconfs]
        exact ht
      · rw [hconfs]
  · refine Set.eq_empty_of_forall_notMem ?_
    rintro host ⟨c, hc, ht, -⟩
    rw [hconfs, ((hforce c).mp hc).2] at ht
    cases ht
  · rw [Bool.eq_iff_iff]
    unfold World.tempAt
    simp only [Option.any_eq_true, hlinked.heldAt_iff, h.heldAt_iff, hforce, hconfs]
    constructor
    · rintro ⟨c, ⟨⟨hc, -⟩, hslot⟩, ht⟩
      exact ⟨c, ⟨hc, hslot⟩, ht⟩
    · rintro ⟨c, ⟨hc, hslot⟩, ht⟩
      exact ⟨c, ⟨⟨hc, ht⟩, hslot⟩, ht⟩

/-- The D-lines of `bandb_pending` one after the other. -/
def World.addHosts (cfg : Config) (w : World) (hosts : List Bytes) : Option World :=
  hosts.foldlM (fun w host => w.addRow cfg (host, false)) w

theorem World.Linked.addHosts {hosts : List Bytes} (hvalid : ∀ host ∈ hosts,
    (parseNetmask cfg.pton host).isSome = true) : ∀ {w : World}, w.Linked cfg →
    ∃ w', w.addHosts cfg hosts = some w' ∧ w'.Linked cfg := by
  induction hosts with
  | nil => exact fun {w} h => ⟨w, rfl, h⟩
  | cons host hosts ih =>
    intro w h
    obtain ⟨mask, hmask⟩ := Option.isSome_iff_exists.mp (hvalid host List.mem_cons_self)
    obtain ⟨v, hv, hlinked, -⟩ := h.addRow false hmask
    obtain ⟨w', hs, hlinked'⟩ := ih (fun x hx => hvalid x (List.mem_cons_of_mem host hx)) hlinked
    refine ⟨w', ?_, hlinked'⟩
    rw [World.addHosts, List.foldlM_cons, hv]
    exact hs

/-- Slots that do not get in each other's way keep what was there and get what
    comes.  By induction over the hosts still to come, among all of them. -/
theorem World.Linked.addHosts_hosts {all : List Bytes}
    (hone : ∀ host ∈ all, ∀ host' ∈ all, SameSlot cfg host host' → host = host')
    {hosts : List Bytes} (hvalid : ∀ host ∈ hosts, (parseNetmask cfg.pton host).isSome = true) :
    ∀ {w w' : World}, w.Linked cfg → (∀ host ∈ hosts, host ∈ all) →
      (∀ host ∈ w.hosts false, host ∈ all) → (∀ host ∈ hosts, w.tempAt cfg host = false) →
      w.addHosts cfg hosts = some w' →
      w'.hosts true = w.hosts true ∧ w'.hosts false = w.hosts false ∪ {host | host ∈ hosts} := by
  induction hosts with
  | nil =>
    intro w w' _ _ _ _ hs
    obtain rfl := Option.some.inj hs
    exact ⟨rfl, by simp⟩
  | cons host hosts ih =>
    intro w w' h hall hold hfree hs
    obtain ⟨mask, hmask⟩ := Option.isSome_iff_exists.mp (hvalid host List.mem_cons_self)
    obtain ⟨v, hv, hlinked, hnewhost, hnewperm, hother, hforce⟩ := h.addRow false hmask
    have hs : v.addHosts cfg hosts = some w' := by
      rw [World.addHosts, List.foldlM_cons, hv] at hs
      exact hs
    have hkeep : ∀ c, w.InForce c → v.confs c = w.confs c := fun c hc =>
      hother c (Nat.ne_of_lt (h.lt_of_inForce hc))
    have htemp : ∀ c, w.InForce c → (w.confs c).temporary = true → w.heldAt cfg host ≠ some c := by
      intro c _ ht hheld
      have hnone := hfree host List.mem_cons_self
      unfold World.tempAt at hnone
      rw [hheld, Option.any_some, ht] at hnone
      cases hnone
    -- the temporary ones
    have htrue : v.hosts true = w.hosts true := by
      ext x
      constructor
      · rintro ⟨c, hc, ht, rfl⟩
        obtain rfl | ⟨hc, -⟩ := (hforce c).mp hc
        · rw [hnewperm] at ht
          cases ht
        · rw [hkeep c hc] at ht ⊢
          exact ⟨c, hc, ht, rfl⟩
      · rintro ⟨c, hc, ht, rfl⟩
        refine ⟨c, (hforce c).mpr (Or.inr ⟨hc, htemp c hc ht⟩), ?_, ?_⟩
        · rw [hkeep c hc]
          exact ht
        · rw [hkeep c hc]
    -- the permanent ones
    have hfalse : v.hosts false = w.hosts false ∪ {host} := by
      ext x
      constructor
      · rintro ⟨c, hc, ht, rfl⟩
        obtain rfl | ⟨hc, -⟩ := (hforce c).mp hc
        · exact Or.inr hnewhost
        · rw [hkeep c hc] at ht ⊢
          exact Or.inl ⟨c, hc, ht, rfl⟩
      · rintro (⟨c, hc, ht, rfl⟩ | rfl)
        · by_cases hheld : w.heldAt cfg host = some c
          · have hsame := hone _ (hold _ ⟨c, hc, ht, rfl⟩) host (hall host List.mem_cons_self)
              (h.heldAt_iff.mp hheld).2
            rw [hsame]
            exact ⟨w.nextConf, (hforce _).mpr (Or.inl rfl), hnewperm, hnewhost⟩
          · refine ⟨c, (hforce c).mpr (Or.inr ⟨hc, hheld⟩), ?_, ?_⟩
            · rw [hkeep c hc]
              exact ht
            · rw [hkeep c hc]
        · exact ⟨w.nextConf, (hforce _).mpr (Or.inl rfl), hnewperm, hnewhost⟩
    have hfree' : ∀ x ∈ hosts, v.tempAt cfg x = false := by
      intro x hx
      rw [Bool.eq_false_iff]
      intro htrue
      unfold World.tempAt at htrue
      rw [Option.any_eq_true] at htrue
      obtain ⟨c, hheld, ht⟩ := htrue
      obtain ⟨hc, hslot⟩ := hlinked.heldAt_iff.mp hheld
      obtain rfl | ⟨hc, -⟩ := (hforce c).mp hc
      · rw [hnewperm] at ht
        cases ht
      · rw [hkeep c hc] at ht hslot
        have hnone := hfree x (List.mem_cons_of_mem host hx)
        unfold World.tempAt at hnone
        rw [h.heldAt_iff.mpr ⟨hc, hslot⟩, Option.any_some, ht] at hnone
        cases hnone
    have hold' : ∀ x ∈ v.hosts false, x ∈ all := by
      intro x hx
      rw [hfalse] at hx
      obtain hx | rfl := hx
      · exact hold x hx
      · exact hall _ List.mem_cons_self
    obtain ⟨h1, h2⟩ := ih (fun x hx => hvalid x (List.mem_cons_of_mem host hx)) hlinked
      (fun x hx => hall x (List.mem_cons_of_mem host hx)) hold' hfree' hs
    refine ⟨h1.trans htrue, ?_⟩
    rw [h2, hfalse]
    ext x
    simp only [Set.mem_union, Set.mem_singleton_iff, Set.mem_ofPred_eq, List.mem_cons, or_assoc]

/-- Where all of them are in force, no two hosts have the same slot, and none that of
    a temporary D-line. -/
theorem World.Linked.slots_of_hosts (h : w.Linked cfg) {x y : Bytes} {t : Bool}
    (hx : x ∈ w.hosts false) (hy : y ∈ w.hosts t) (hslot : SameSlot cfg y x) : y = x ∧ t = false := by
  obtain ⟨c, hc, ht, rfl⟩ := hx
  obtain ⟨d, hd, ht', rfl⟩ := hy
  have hc' := h.heldAt_self hc
  have hd' := h.heldAt_iff.mpr ⟨hd, hslot⟩
  rw [hc'] at hd'
  obtain rfl := Option.some.inj hd'
  exact ⟨rfl, ht'.symm.trans ht⟩

end Bluebox.Dline
