/-
  Bluebox.Nick.Uid

  The UIDs a server gives its clients (`init_uid`, `generate_uid` in
  `libratboxcore/client.c`): the three bytes of its SID and six marks that are
  counted up in place, the last one fastest.  Five of them run through the
  letters and then the digits, the first one through the letters only.
-/
import Bluebox.Lib.Odometer
import Bluebox.Nick.Basic

namespace Bluebox.Nick

open Bluebox.Lib

-- ============================================================================
-- The buffer
-- ============================================================================

/-- What `conf_set_serverinfo_sid` accepts. -/
def cleanSid (sid : Bytes) : Bool :=
  isDigit (sid.getD 0 0) && isIdChar (sid.getD 1 0) && isIdChar (sid.getD 2 0) && sid.length == 3

/-- The id of the server itself, as the configuration gave it. -/
structure Sid where
  bytes : Bytes
  clean : cleanSid bytes = true

/-- `init_uid`: `current_uid`, without the NUL at its end. -/
def initUid (sid : Sid) : Bytes := sid.bytes.take 3 ++ List.replicate 6 65

/-- The loop of `generate_uid` with `i = n + 3`, and what follows it. -/
def generateFrom : Nat → Bytes → Bytes
  | 0, uid => if uid.getD 3 0 = 90 then uid.set 3 65 else uid.set 3 (uid.getD 3 0 + 1)
  | n + 1, uid =>
    if uid.getD (n + 4) 0 = 90 then uid.set (n + 4) 48
    else if uid.getD (n + 4) 0 ≠ 57 then uid.set (n + 4) (uid.getD (n + 4) 0 + 1)
    else generateFrom n (uid.set (n + 4) 65)

/-- `generate_uid`: it changes `current_uid` and returns it. -/
def generateUid (uid : Bytes) : Bytes := generateFrom 5 uid

/-- `current_uid` after some calls of `generate_uid`, which is what the last of them
    returned. -/
def uidAfter (sid : Sid) (calls : Nat) : Bytes := generateUid^[calls] (initUid sid)

-- ============================================================================
-- The wheels
-- ============================================================================

/-- The mark at position 3: `A` to `Z`. -/
def letterWheel : Wheel UInt8 where
  first := 65
  next b := if b = 90 then none else some (b + 1)
  size := 26
  On b := 65 ≤ b.toNat ∧ b.toNat ≤ 90
  rank b := b.toNat - 65
  on_first := by decide
  rank_first := rfl
  next_some {a b} hon h := by
    by_cases ha : a = 90
    · rw [if_pos ha] at h
      cases h
    · rw [if_neg ha] at h
      cases h
      have hne : a.toNat ≠ 90 := fun heq => ha (UInt8.toNat_inj.mp heq)
      have hadd : (a + 1).toNat = (a.toNat + 1) % 256 := UInt8.toNat_add a 1
      omega
  next_none {a} hon h := by
    by_cases ha : a = 90
    · rw [ha]
      rfl
    · rw [if_neg ha] at h
      cases h

/-- The marks after it: `A` to `Z` and then `0` to `9`. -/
def markWheel : Wheel UInt8 where
  first := 65
  next b := if b = 90 then some 48 else if b ≠ 57 then some (b + 1) else none
  size := 36
  On b := (65 ≤ b.toNat ∧ b.toNat ≤ 90) ∨ (48 ≤ b.toNat ∧ b.toNat ≤ 57)
  rank b := if 65 ≤ b.toNat then b.toNat - 65 else b.toNat - 22
  on_first := by decide
  rank_first := rfl
  next_some {a b} hon h := by
    by_cases ha : a = 90
    · rw [if_pos ha] at h
      cases h
      rw [ha]
      decide
    · rw [if_neg ha] at h
      by_cases hlast : a ≠ 57
      · rw [if_pos hlast] at h
        cases h
        have hne : a.toNat ≠ 90 := fun heq => ha (UInt8.toNat_inj.mp heq)
        have hne' : a.toNat ≠ 57 := fun heq => hlast (UInt8.toNat_inj.mp heq)
        have hadd : (a + 1).toNat = (a.toNat + 1) % 256 := UInt8.toNat_add a 1
        split_ifs <;> omega
      · rw [if_neg hlast] at h
        cases h
  next_none {a} hon h := by
    by_cases ha : a = 90
    · rw [if_pos ha] at h
      cases h
    · rw [if_neg ha] at h
      by_cases hlast : a ≠ 57
      · rw [if_pos hlast] at h
        cases h
      · rw [not_not.mp hlast]
        rfl

/-- The wheels of `current_uid` behind the SID. -/
def uidWheels : List (Wheel UInt8) := letterWheel :: List.replicate 5 markWheel

theorem capacity_uidWheels : capacity uidWheels = 26 * 36 ^ 5 := rfl

-- ============================================================================
-- The loop turns the wheels
-- ============================================================================

theorem Sid.exists_bytes (sid : Sid) : ∃ x y z, sid.bytes = [x, y, z] := by
  have hclean := sid.clean
  unfold cleanSid at hclean
  simp only [Bool.and_eq_true, beq_iff_eq] at hclean
  exact List.length_eq_three.mp hclean.2

theorem exists_marks {ds : Bytes} (h : Reading uidWheels ds) :
    ∃ l a b c d e, ds = [l, a, b, c, d, e] := by
  have hlen : ds.length = 6 := (List.Forall₂.length_eq h).symm
  match ds, hlen with
  | [l, a, b, c, d, e], _ => exact ⟨l, a, b, c, d, e, rfl⟩

/-- `generate_uid` is a tick of the wheels behind the SID. -/
theorem generateUid_tick (sid : Sid) {ds : Bytes} (h : Reading uidWheels ds) :
    generateUid (sid.bytes ++ ds) = sid.bytes ++ (tick uidWheels ds).1 := by
  obtain ⟨x, y, z, hsid⟩ := sid.exists_bytes
  obtain ⟨l, a, b, c, d, e, rfl⟩ := exists_marks h
  rw [hsid]
  show generateFrom 5 [x, y, z, l, a, b, c, d, e] = x :: y :: z :: (tick uidWheels _).1
  -- One wheel after the other: it stops the loop, or it goes over.
  by_cases he : e = 90
  · subst he; rfl
  by_cases he' : e = 57
  swap
  · simp [generateFrom, tick, uidWheels, markWheel, he, he']
  by_cases hd : d = 90
  · subst hd he'; rfl
  by_cases hd' : d = 57
  swap
  · simp [generateFrom, tick, uidWheels, markWheel, he', hd, hd']
  by_cases hc : c = 90
  · subst hc hd' he'; rfl
  by_cases hc' : c = 57
  swap
  · simp [generateFrom, tick, uidWheels, markWheel, he', hd', hc, hc']
  by_cases hb : b = 90
  · subst hb hc' hd' he'; rfl
  by_cases hb' : b = 57
  swap
  · simp [generateFrom, tick, uidWheels, markWheel, he', hd', hc', hb, hb']
  by_cases ha : a = 90
  · subst ha hb' hc' hd' he'; rfl
  by_cases ha' : a = 57
  swap
  · simp [generateFrom, tick, uidWheels, markWheel, he', hd', hc', hb', ha, ha']
  by_cases hl : l = 90
  · subst hl ha' hb' hc' hd' he'; rfl
  · simp [generateFrom, tick, uidWheels, letterWheel, markWheel, he', hd', hc', hb', ha', hl]

example : generateUid [52, 50, 88, 65, 65, 65, 65, 90, 57] = [52, 50, 88, 65, 65, 65, 65, 48, 65] := by
  decide

/-- The calls of `generate_uid` count behind the SID. -/
theorem uidAfter_eq (sid : Sid) {n : Nat} (h : n < capacity uidWheels) :
    uidAfter sid n = sid.bytes ++ (fun ds => (tick uidWheels ds).1)^[n] (zeros uidWheels) := by
  induction n with
  | zero =>
    obtain ⟨x, y, z, hsid⟩ := sid.exists_bytes
    show initUid sid = sid.bytes ++ zeros uidWheels
    unfold initUid
    rw [hsid]
    rfl
  | succ n ih =>
    have hread := (ticks_value uidWheels n (by omega)).1
    unfold uidAfter at ih ⊢
    rw [Function.iterate_succ_apply', ih (by omega), generateUid_tick sid hread,
      Function.iterate_succ_apply']

-- ============================================================================
-- The ids
-- ============================================================================

/-- The id is the SID, a letter, and five marks of `A` to `Z` and `0` to `9`. -/
def IsUidOf (sid : Sid) (uid : Bytes) : Prop :=
  ∃ l ds, uid = sid.bytes ++ l :: ds ∧ (65 ≤ l.toNat ∧ l.toNat ≤ 90) ∧ ds.length = 5 ∧
    ∀ d ∈ ds, (65 ≤ d.toNat ∧ d.toNat ≤ 90) ∨ (48 ≤ d.toNat ∧ d.toNat ≤ 57)

theorem isUidOf_of_reading (sid : Sid) {ds : Bytes} (h : Reading uidWheels ds) :
    IsUidOf sid (sid.bytes ++ ds) := by
  unfold Reading uidWheels at h
  obtain ⟨l, marks, hl, hmarks, rfl⟩ := List.forall₂_cons_left_iff.mp h
  have hon : Reading (List.replicate 5 markWheel) marks := hmarks
  exact ⟨l, marks, rfl, hl, (List.Forall₂.length_eq hmarks).symm, hon.on_replicate⟩

/-- A mark of an id is a digit or a letter. -/
theorem isIdChar_of_mark {b : UInt8}
    (h : (65 ≤ b.toNat ∧ b.toNat ≤ 90) ∨ (48 ≤ b.toNat ∧ b.toNat ≤ 57)) : isIdChar b = true := by
  unfold isIdChar
  simp only [Bool.or_eq_true, Bool.and_eq_true, decide_eq_true_eq, UInt8.le_iff_toNat_le]
  rcases h with h | h
  · exact Or.inl (Or.inr h)
  · exact Or.inl (Or.inl h)

/-- Every such id passes the test the other servers make. -/
theorem IsUidOf.clean {sid : Sid} {uid : Bytes} (h : IsUidOf sid uid) : cleanUid uid = true := by
  obtain ⟨l, ds, rfl, hl, hlen, hds⟩ := h
  have hsid := sid.clean
  obtain ⟨x, y, z, hbytes⟩ := sid.exists_bytes
  unfold cleanSid at hsid
  rw [hbytes] at hsid ⊢
  simp only [List.getD_cons_zero, List.getD_cons_succ, Bool.and_eq_true] at hsid
  unfold cleanUid
  have hmarks : ds.all isIdChar = true :=
    List.all_eq_true.mpr fun d hd => isIdChar_of_mark (hds d hd)
  simp only [List.cons_append, List.nil_append, List.headD_cons, List.tail_cons, List.all_cons,
    hsid.1.1.1, hsid.1.1.2, hsid.1.2, isIdChar_of_mark (Or.inl hl), hmarks, List.length_cons, hlen]
  rfl

/-- The initial value and what the first `26 * 36 ^ 5 - 1` calls return: they are pairwise
    distinct, made of the SID and six marks, and clean. -/
theorem generateUid_fresh (sid : Sid) :
    Function.Injective (fun calls : Fin (26 * 36 ^ 5) => uidAfter sid calls) ∧
      ∀ calls : Fin (26 * 36 ^ 5), IsUidOf sid (uidAfter sid calls) ∧
        cleanUid (uidAfter sid calls) = true := by
  refine ⟨fun m n hmn => ?_, fun n => ?_⟩
  · have hsame : uidAfter sid m = uidAfter sid n := hmn
    have hm := ticks_value uidWheels m (by rw [capacity_uidWheels]; exact m.isLt)
    have hn := ticks_value uidWheels n (by rw [capacity_uidWheels]; exact n.isLt)
    rw [uidAfter_eq sid (by rw [capacity_uidWheels]; exact m.isLt),
      uidAfter_eq sid (by rw [capacity_uidWheels]; exact n.isLt)] at hsame
    have hreading := List.append_cancel_left hsame
    apply Fin.ext
    rw [← hm.2, hreading, hn.2]
  · have hn : n.val < capacity uidWheels := by rw [capacity_uidWheels]; exact n.isLt
    have hid : IsUidOf sid (uidAfter sid n) := by
      rw [uidAfter_eq sid hn]
      exact isUidOf_of_reading sid (ticks_value uidWheels n hn).1
    exact ⟨hid, hid.clean⟩

end Bluebox.Nick
