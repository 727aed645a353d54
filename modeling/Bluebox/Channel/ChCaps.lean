/-
  Bluebox.Channel.ChCaps

  The usage counts of the combinations of capabilities (`libratboxcore/channel.c`).

  A server has one combination of the four capabilities that a channel mode can need.
  `chcap_combos` counts the servers of each, and `send_cap_mode_changes` passes over
  those that no server has.
-/
import Bluebox.Channel.Forward
import Bluebox.Lib.Reach

namespace Bluebox.ChCaps

open Bluebox.Lib
open Bluebox.Forward (Link ServList capTs6 and_twoPow_cases notCapable_ts6 notCapable_or notCapable_zero
  isCapable_zero)

-- ============================================================================
-- The table
-- ============================================================================

/-- `CAP_EX`. -/
def capEx : UInt32 := 0x4

/-- `CAP_IE`. -/
def capIe : UInt32 := 0x10

/-- `CAP_SERVICE`. -/
def capService : UInt32 := 0x10000

/-- `channel_capabs`. -/
def channelCapabs : List UInt32 := [capEx, capIe, capService, capTs6]

/-- `struct ChCapCombo`. -/
structure ChCapCombo where
  count : Nat
  capYes : UInt32
  capNo : UInt32
deriving DecidableEq, Repr

/-- A capability of a combination, by the bit of its number. -/
def ChCapCombo.put (m : Nat) (j : ChCapCombo) (c : UInt32 × Nat) : ChCapCombo :=
  if m.testBit c.2 then { j with capYes := j.capYes ||| c.1 } else { j with capNo := j.capNo ||| c.1 }

/-- The combination number `m`. -/
def comboOf (m : Nat) : ChCapCombo := channelCapabs.zipIdx.foldl (ChCapCombo.put m) ⟨0, 0, 0⟩

/-- `init_chcap_usage_counts`. -/
def initChcapUsageCounts : List ChCapCombo := (List.range 16).map comboOf

/-- The server has what the combination has, and nothing else of `channel_capabs`. -/
def ChCapCombo.has (j : ChCapCombo) (x : Link) : Bool := x.isCapable j.capYes && x.notCapable j.capNo

/-- The loop of `set_chcap_usage_counts` and `unset_chcap_usage_counts`: the first
    combination of the server gets another count. -/
def tallyFirst (f : Nat → Nat) (x : Link) : List ChCapCombo → List ChCapCombo
  | [] => []
  | j :: combos =>
    if j.has x then { j with count := f j.count } :: combos else j :: tallyFirst f x combos

/-- `set_chcap_usage_counts`. -/
def setChcapUsageCounts : Link → List ChCapCombo → List ChCapCombo := tallyFirst (· + 1)

/-- `unset_chcap_usage_counts`. -/
def unsetChcapUsageCounts : Link → List ChCapCombo → List ChCapCombo :=
  tallyFirst fun n => if 0 < n then n - 1 else n

-- ============================================================================
-- Runs
-- ============================================================================

/-- The linked servers and the counts. -/
structure Mesh where
  servList : ServList
  combos : List ChCapCombo

/-- No server is linked. -/
def Mesh.start : Mesh := ⟨⟨[], List.nodup_nil⟩, initChcapUsageCounts⟩

/-- What changes `serv_list`. -/
inductive LinkEvent
  | establish (x : Link)
  | exit (id : Nat)

/-- `serv_list` without a server. -/
def removeLink (sl : ServList) (id : Nat) : ServList where
  links := sl.links.filter (·.id != id)
  nodup := (List.filter_sublist.map Link.id).nodup sl.nodup

/-- `server_estab` and `exit_local_server`, as far as they are about the counts. -/
def Mesh.step (s : Mesh) : LinkEvent → Option Mesh
  | .establish x =>
    if h : x.id ∈ s.servList.links.map Link.id then none
    else some ⟨⟨x :: s.servList.links, List.nodup_cons.mpr ⟨h, s.servList.nodup⟩⟩,
      setChcapUsageCounts x s.combos⟩
  | .exit id =>
    (s.servList.links.find? (·.id == id)).map fun x =>
      ⟨removeLink s.servList id, unsetChcapUsageCounts x s.combos⟩

-- ============================================================================
-- One combination for each server
-- ============================================================================

theorem and_or_distrib (a b c : UInt32) : a &&& (b ||| c) = (a &&& b) ||| (a &&& c) :=
  UInt32.toBitVec_inj.mp BitVec.and_or_distrib_left

theorem isCapable_or (x : Link) (a b : UInt32) :
    x.isCapable (a ||| b) = (x.isCapable a && x.isCapable b) := by
  have habsorb : ∀ c d : UInt32, c &&& (c ||| d) = c := by
    intro c d
    refine UInt32.toBitVec_inj.mp (BitVec.eq_of_getLsbD_eq fun i _ => ?_)
    rw [UInt32.toBitVec_and, UInt32.toBitVec_or, BitVec.getLsbD_and, BitVec.getLsbD_or]
    cases c.toBitVec.getLsbD i <;> rfl
  unfold Link.isCapable
  rw [Bool.eq_iff_iff, Bool.and_eq_true, beq_iff_eq, beq_iff_eq, beq_iff_eq]
  constructor
  · intro h
    have hpart : ∀ c, c &&& (a ||| b) = c → x.caps &&& c = c := by
      intro c hc
      rw [← hc, UInt32.and_comm c, ← UInt32.and_assoc, h]
    exact ⟨hpart a (habsorb a b), hpart b (by rw [UInt32.or_comm]; exact habsorb b a)⟩
  · intro ⟨ha, hb⟩
    rw [and_or_distrib, ha, hb]

/-- Each capability of the table is one bit. -/
theorem notCapable_eq (x : Link) {c : UInt32 × Nat} (hc : c ∈ channelCapabs.zipIdx) :
    x.notCapable c.1 = !x.isCapable c.1 := by
  have hex : x.notCapable capEx = !x.isCapable capEx := @and_twoPow_cases x.caps capEx 2 rfl
  have hie : x.notCapable capIe = !x.isCapable capIe := @and_twoPow_cases x.caps capIe 4 rfl
  have hservice : x.notCapable capService = !x.isCapable capService :=
    @and_twoPow_cases x.caps capService 16 rfl
  simp only [channelCapabs, List.zipIdx_cons, List.zipIdx_nil, List.mem_cons, List.not_mem_nil, or_false] at hc
  obtain rfl | rfl | rfl | rfl := hc
  · exact hex
  · exact hie
  · exact hservice
  · exact notCapable_ts6 x

theorem foldl_put_has (m : Nat) (x : Link) (l : List (UInt32 × Nat))
    (hl : ∀ c ∈ l, x.notCapable c.1 = !x.isCapable c.1) : ∀ j : ChCapCombo,
    (l.foldl (ChCapCombo.put m) j).has x = (j.has x && l.all fun c => x.isCapable c.1 == m.testBit c.2) := by
  induction l with
  | nil => exact fun j => (Bool.and_true _).symm
  | cons c l ih =>
    intro j
    have hput : (j.put m c).has x = (j.has x && (x.isCapable c.1 == m.testBit c.2)) := by
      unfold ChCapCombo.put ChCapCombo.has
      cases m.testBit c.2 with
      | true =>
        rw [if_pos rfl, isCapable_or, Bool.and_right_comm, beq_true]
      | false =>
        rw [if_neg Bool.false_ne_true, notCapable_or, hl c List.mem_cons_self, beq_false, Bool.and_assoc]
    rw [List.foldl_cons, ih (fun d hd => hl d (List.mem_cons_of_mem _ hd)), hput, List.all_cons, Bool.and_assoc]

/-- A server has the combination whose bits are its capabilities. -/
theorem comboOf_has (m : Nat) (x : Link) :
    (comboOf m).has x = true ↔ x.isCapable capEx = m.testBit 0 ∧ x.isCapable capIe = m.testBit 1 ∧
      x.isCapable capService = m.testBit 2 ∧ x.isCapable capTs6 = m.testBit 3 := by
  have hnone : (⟨0, 0, 0⟩ : ChCapCombo).has x = true := by
    rw [ChCapCombo.has, isCapable_zero, notCapable_zero]
    rfl
  rw [comboOf, foldl_put_has m x _ fun c hc => notCapable_eq x hc, hnone, Bool.true_and]
  simp only [channelCapabs, List.zipIdx_cons, List.zipIdx_nil, List.all_cons, List.all_nil, Bool.and_true,
    Bool.and_eq_true, beq_iff_eq]

/-- No server has two combinations. -/
theorem comboOf_has_unique {m n : Nat} (hm : m < 16) (hn : n < 16) {x : Link}
    (h : (comboOf m).has x = true) (h' : (comboOf n).has x = true) : m = n := by
  rw [comboOf_has] at h h'
  refine Nat.eq_of_testBit_eq fun i => ?_
  by_cases hi : i < 4
  · obtain rfl | rfl | rfl | rfl : i = 0 ∨ i = 1 ∨ i = 2 ∨ i = 3 := by omega
    · exact h.1.symm.trans h'.1
    · exact h.2.1.symm.trans h'.2.1
    · exact h.2.2.1.symm.trans h'.2.2.1
    · exact h.2.2.2.symm.trans h'.2.2.2
  · have hpow : 16 ≤ 2 ^ i := Nat.pow_le_pow_right (n := 2) (by decide) (Nat.le_of_not_lt hi)
    rw [Nat.testBit_lt_two_pow (by omega), Nat.testBit_lt_two_pow (by omega)]

/-- And each has one. -/
theorem exists_comboOf_has (x : Link) : ∃ m < 16, (comboOf m).has x = true := by
  refine ⟨(x.isCapable capEx).toNat + 2 * (x.isCapable capIe).toNat + 4 * (x.isCapable capService).toNat +
    8 * (x.isCapable capTs6).toNat, ?_, ?_⟩
  · have hle := fun b : Bool => b.toNat_le
    have h₀ := hle (x.isCapable capEx)
    have h₁ := hle (x.isCapable capIe)
    have h₂ := hle (x.isCapable capService)
    have h₃ := hle (x.isCapable capTs6)
    omega
  · rw [comboOf_has]
    generalize x.isCapable capEx = b₀
    generalize x.isCapable capIe = b₁
    generalize x.isCapable capService = b₂
    generalize x.isCapable capTs6 = b₃
    revert b₀ b₁ b₂ b₃
    decide

/-- The table is cut at the combination of a server. -/
theorem exists_split (x : Link) : ∃ pre m post, List.range 16 = pre ++ m :: post ∧
    (comboOf m).has x = true ∧ ∀ n ∈ pre ++ post, (comboOf n).has x = false := by
  obtain ⟨m, hm, hhas⟩ := exists_comboOf_has x
  obtain ⟨pre, post, heq⟩ := List.append_of_mem (List.mem_range.mpr hm)
  have hnodup : (pre ++ m :: post).Nodup := heq ▸ List.nodup_range
  refine ⟨pre, m, post, heq, hhas, fun n hn => Bool.eq_false_iff.mpr fun hother => ?_⟩
  have hmem : n ∈ List.range 16 := by
    rw [heq]
    exact List.perm_middle.mem_iff.mpr (List.mem_cons_of_mem _ hn)
  obtain rfl := comboOf_has_unique (List.mem_range.mp hmem) hm hother hhas
  exact (List.nodup_cons.mp (List.perm_middle.nodup_iff.mp hnodup)).1 hn

-- ============================================================================
-- The counts
-- ============================================================================

/-- The table with the number of servers of each combination. -/
def counted (links : List Link) : List ChCapCombo :=
  (List.range 16).map fun m => { comboOf m with count := links.countP (comboOf m).has }

theorem tallyFirst_split {f : Nat → Nat} {x : Link} {j : ChCapCombo} {post : List ChCapCombo}
    (hj : j.has x = true) : ∀ pre : List ChCapCombo, (∀ k ∈ pre, k.has x = false) →
    tallyFirst f x (pre ++ j :: post) = pre ++ { j with count := f j.count } :: post := by
  intro pre
  induction pre with
  | nil => exact fun _ => if_pos hj
  | cons k pre ih =>
    intro hpre
    rw [List.cons_append, tallyFirst, if_neg (by rw [hpre k List.mem_cons_self]; exact Bool.false_ne_true),
      ih fun k hk => hpre k (List.mem_cons_of_mem _ hk)]
    rfl

/-- A server that comes or goes changes one count. -/
theorem tallyFirst_counted {f : Nat → Nat} {x : Link} {links links' : List Link}
    (hhas : ∀ m, (comboOf m).has x = true → f (links.countP (comboOf m).has) = links'.countP (comboOf m).has)
    (hother : ∀ m, (comboOf m).has x = false → links.countP (comboOf m).has = links'.countP (comboOf m).has) :
    tallyFirst f x (counted links) = counted links' := by
  obtain ⟨pre, m, post, heq, hm, hrest⟩ := exists_split x
  have hside : ∀ l : List Nat, (∀ n ∈ l, (comboOf n).has x = false) →
      (l.map fun n => ({ comboOf n with count := links.countP (comboOf n).has } : ChCapCombo)) =
        l.map fun n => { comboOf n with count := links'.countP (comboOf n).has } := fun l hl =>
    List.map_congr_left fun n hn => by rw [hother n (hl n hn)]
  unfold counted
  rw [heq, List.map_append, List.map_append, List.map_cons, List.map_cons, tallyFirst_split,
    hside pre fun n hn => hrest n (List.mem_append_left _ hn),
    hside post fun n hn => hrest n (List.mem_append_right _ hn), hhas m hm]
  · exact hm
  · intro k hk
    obtain ⟨n, hn, rfl⟩ := List.mem_map.mp hk
    exact hrest n (List.mem_append_left _ hn)

theorem perm_filter_ne {links : List Link} {x : Link} (hx : x ∈ links) (hnodup : (links.map Link.id).Nodup) :
    links.Perm (x :: links.filter (·.id != x.id)) := by
  induction links with
  | nil => cases hx
  | cons y links ih =>
    obtain ⟨hy, hrest⟩ := List.nodup_cons.mp hnodup
    by_cases heq : y.id = x.id
    · have hnot : x ∉ links := fun hmem => hy (heq ▸ List.mem_map_of_mem hmem)
      obtain rfl := (List.mem_cons.mp hx).resolve_right hnot
      have hkeep : links.filter (·.id != x.id) = links :=
        List.filter_eq_self.mpr fun z hz => bne_iff_ne.mpr fun hid => hy (hid ▸ List.mem_map_of_mem hz)
      rw [List.filter_cons_of_neg (by simp), hkeep]
    · have hmem : x ∈ links := (List.mem_cons.mp hx).resolve_left fun h => heq (h ▸ rfl)
      have hpos : (y.id != x.id) = true := bne_iff_ne.mpr heq
      rw [List.filter_cons, if_pos hpos]
      exact ((ih hmem hrest).cons y).trans (List.Perm.swap x y _)

/-- In every run the counts are those of the linked servers. -/
theorem combos_eq_counted {s : Mesh} (h : Reach Mesh.step anyStep Mesh.start s) :
    s.combos = counted s.servList.links := by
  refine h.invariant (P := fun s => s.combos = counted s.servList.links) ?_ fun s a s' hcounted _ hstep => ?_
  · decide
  · cases a with
    | establish x =>
      rw [Mesh.step] at hstep
      split at hstep
      · cases hstep
      · obtain rfl := Option.some.inj hstep
        show setChcapUsageCounts x s.combos = _
        rw [hcounted]
        refine tallyFirst_counted (fun m hm => ?_) fun m hm => ?_
        · rw [List.countP_cons_of_pos hm]
        · rw [List.countP_cons_of_neg (by rw [hm]; exact Bool.false_ne_true)]
    | exit id =>
      obtain ⟨x, hx, rfl⟩ := Option.map_eq_some_iff.mp hstep
      show unsetChcapUsageCounts x s.combos = _
      rw [hcounted]
      obtain rfl : x.id = id := by simpa using List.find?_some hx
      have hperm := perm_filter_ne (List.mem_of_find?_eq_some hx) s.servList.nodup
      refine tallyFirst_counted (fun m hm => ?_) fun m hm => ?_
      · rw [hperm.countP_eq, List.countP_cons_of_pos hm, if_pos (Nat.succ_pos _)]
        rfl
      · rw [hperm.countP_eq, List.countP_cons_of_neg (by rw [hm]; exact Bool.false_ne_true)]
        rfl

end Bluebox.ChCaps
