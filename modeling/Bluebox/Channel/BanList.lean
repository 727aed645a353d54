/-
  Bluebox.Channel.BanList

  The ban, exception and invex lists as sets: no two entries of a list compare
  equal, and removing what was added restores the list.

  An entry keeps `BANLEN - 1` bytes of its mask, while masks are compared whole,
  so a remote mask that is longer is never recognised again.  A local mask is
  short enough, but it is recognised by `match`, which gives up on a mask with
  too many wildcards.
-/
import Bluebox.Channel.Run

namespace Bluebox.Chan

open Bluebox.Lib

-- ============================================================================
-- The invariant
-- ============================================================================

/-- No two entries compare equal. -/
def BansDistinct (l : List Ban) : Prop := l.Pairwise fun a b => irccmp a.banstr b.banstr ≠ 0

/-- An entry is a string that fits its buffer. -/
def Ban.Stored (b : Ban) : Prop := NoNul b.banstr ∧ b.banstr.length < banLen

/-- The masks that are recognised again: a remote one that is stored whole, a
    local one that `match` finds to match itself. -/
def MaskOk (source : Client) (mask : Bytes) : Prop :=
  if source.myClient then matchMask mask mask = true else mask.length < banLen

section Lists

variable {cfg : Config} {client : Nat → Option Client} {ok : Client → Bytes → Prop}
variable {ch ch' : Channel}

theorem allocateBan_stored {mask who : Bytes} {now : Int} (h : NoNul mask) :
    (allocateBan mask who now).Stored :=
  ⟨h.take _, strlcpy_length_lt mask (by decide)⟩

/-- The lists an update leaves: one of them may have gained or lost an entry. -/
theorem Update.list_cases (h : Update cfg client ok ch ch') (j : BanType) :
    ch'.list j = ch.list j ∨ ch'.list j = [] ∨ (∃ p, ch'.list j = (ch.list j).eraseP p) ∨
    ∃ source mask now, ok source mask ∧ NoNul mask ∧
      (source.myClient = true → mask.length < banLen) ∧ addRefused cfg ch source mask j = false ∧
      ch'.list j = allocateBan mask (banSetter source) now :: ch.list j := by
  cases h with
  | mode => exact Or.inl (by cases j <;> rfl)
  | stamp => exact Or.inl (by cases j <;> rfl)
  | status => exact Or.inl (by cases j <;> rfl)
  | enter => exact Or.inl (by cases j <;> rfl)
  | leave => exact Or.inl (by cases j <;> rfl)
  | add source mask k now hok hnul hlen h =>
    obtain ⟨href, rfl⟩ := addId_eq_some h
    by_cases hj : j = k
    · subst hj
      exact Or.inr (Or.inr (Or.inr ⟨source, mask, now, hok, hnul, hlen, href,
        list_setList_bumpFor ..⟩))
    · exact Or.inl (list_setList_bumpFor_of_ne _ _ _ _ hj)
  | del mask k h =>
    rw [delId_eq_some h]
    by_cases hj : j = k
    · subst hj
      exact Or.inr (Or.inr (Or.inl ⟨_, list_setList_bumpFor ..⟩))
    · exact Or.inl (list_setList_bumpFor_of_ne _ _ _ _ hj)
  | reset => exact Or.inr (Or.inl (by cases j <;> rfl))
  | cache => exact Or.inl (by cases j <;> rfl)
  | forget => exact Or.inl (by cases j <;> rfl)

theorem Update.stored (h : Update cfg client ok ch ch')
    (hs : ∀ j, ∀ b ∈ ch.list j, b.Stored) : ∀ j, ∀ b ∈ ch'.list j, b.Stored := by
  intro j b hb
  obtain heq | heq | ⟨p, heq⟩ | ⟨source, mask, now, -, hnul, -, -, heq⟩ := h.list_cases j
  · rw [heq] at hb
    exact hs j b hb
  · rw [heq] at hb
    exact absurd hb List.not_mem_nil
  · rw [heq] at hb
    exact hs j b (List.mem_of_mem_eraseP hb)
  · rw [heq] at hb
    rcases List.mem_cons.mp hb with rfl | hb
    · exact allocateBan_stored hnul
    · exact hs j b hb

/-- A mask that is recognised again was not listed when it was added. -/
theorem not_listed_of_accepted {source : Client} {mask : Bytes} {k : BanType}
    (hok : MaskOk source mask) (hnul : NoNul mask) (hs : ∀ b ∈ ch.list k, b.Stored)
    (h : addRefused cfg ch source mask k = false) :
    ∀ b ∈ ch.list k, irccmp mask b.banstr ≠ 0 := by
  intro b hb heq
  unfold addRefused at h
  unfold MaskOk at hok
  by_cases hmy : source.myClient = true
  · rw [if_pos hmy] at h hok
    rw [Bool.or_eq_false_iff, List.any_eq_false] at h
    have hself : matchMask b.banstr mask = matchMask mask mask :=
      matchMask_congr (lower_eq_of_irccmp hnul (hs b hb).1 heq).symm rfl
    exact h.2 b hb (hself.trans hok)
  · rw [if_neg hmy, List.any_eq_false] at h
    exact h b hb (by simpa using (irccmp_eq_zero_comm _ _).mp heq)

theorem Update.distinct (h : Update cfg client MaskOk ch ch')
    (hs : ∀ j, ∀ b ∈ ch.list j, b.Stored) (hd : ∀ j, BansDistinct (ch.list j)) :
    ∀ j, BansDistinct (ch'.list j) := by
  intro j
  obtain heq | heq | ⟨p, heq⟩ | ⟨source, mask, now, hok, hnul, hlen, href, heq⟩ := h.list_cases j
  · rw [heq]
    exact hd j
  · rw [heq]
    exact List.Pairwise.nil
  · rw [heq]
    exact (hd j).sublist List.eraseP_sublist
  · rw [heq]
    have hwhole : mask.length < banLen := by
      by_cases hmy : source.myClient = true
      · exact hlen hmy
      · unfold MaskOk at hok
        rwa [if_neg hmy] at hok
    refine List.pairwise_cons.mpr ⟨fun b hb => ?_, hd j⟩
    show irccmp (strlcpy mask banLen) b.banstr ≠ 0
    rw [strlcpy_of_lt hwhole]
    exact not_listed_of_accepted hok hnul (hs j) href b hb

end Lists

-- ============================================================================
-- Adding and removing
-- ============================================================================

section Removing

variable {cfg : Config} {ch : Channel}

/-- `del_id` removes the only entry that compares equal. -/
theorem delId_only {mask : Bytes} {k : BanType} {b : Ban} (hne : mask ≠ [])
    (hd : BansDistinct (ch.list k)) (hb : b ∈ ch.list k) (hmask : b.banstr = mask) :
    ∃ ch', delId ch mask k = some ch' ∧ ch'.list k = (ch.list k).erase b := by
  have hself : irccmp mask b.banstr = 0 := by
    rw [hmask]
    exact irccmp_self mask
  have hany : (ch.list k).any (fun b => irccmp mask b.banstr == 0) = true :=
    List.any_eq_true.mpr ⟨b, hb, by simpa using hself⟩
  refine ⟨_, by rw [delId, if_neg hne, if_pos hany], ?_⟩
  rw [list_setList_bumpFor]
  generalize ch.list k = l at hd hb
  clear hany
  induction l with
  | nil => exact absurd hb List.not_mem_nil
  | cons a l ih =>
    obtain ⟨hhead, htail⟩ := List.pairwise_cons.mp hd
    by_cases ha : a = b
    · subst ha
      rw [List.erase_cons_head, List.eraseP_cons_of_pos (by simpa using hself)]
    · have hbl : b ∈ l := (List.mem_cons.mp hb).resolve_left (Ne.symm ha)
      have hna : ¬ irccmp mask a.banstr = 0 := fun h0 => hhead b hbl
        ((irccmp_eq_zero_comm _ _).mp (by rw [hmask]; exact h0))
      rw [List.erase_cons_tail (by simpa using ha), List.eraseP_cons_of_neg (by simpa using hna),
        ih htail hbl]

/-- What a remote source added is removed again, and the list is as before,
    exactly when the mask was stored whole. -/
theorem delId_addId_iff {source : Client} {mask : Bytes} {k : BanType} {now : Int} {ch' : Channel}
    (hs : ∀ b ∈ ch.list k, b.Stored) (hnul : NoNul mask) (hne : mask ≠ [])
    (hadd : addId cfg ch source mask k now = some ch') :
    (∃ ch'', delId ch' mask k = some ch'' ∧ ch''.list k = ch.list k) ↔ mask.length < banLen := by
  obtain ⟨-, rfl⟩ := addId_eq_some hadd
  constructor
  · rintro ⟨ch'', hdel, -⟩
    by_contra hlong
    -- nothing that is stored is as long as the mask
    have hnone : ∀ b ∈ allocateBan mask (banSetter source) now :: ch.list k,
        ¬ irccmp mask b.banstr = 0 := by
      intro b hb heq
      have hstored : b.Stored := by
        rcases List.mem_cons.mp hb with rfl | hb
        · exact allocateBan_stored hnul
        · exact hs b hb
      have hlen := congrArg List.length ((irccmp_eq_zero_iff hnul hstored.1).mp heq)
      rw [List.length_map, List.length_map] at hlen
      have hlt := hstored.2
      omega
    unfold delId at hdel
    rw [list_setList_bumpFor, if_neg hne, if_neg] at hdel
    · cases hdel
    · rw [List.any_eq_true]
      rintro ⟨b, hb, heq⟩
      exact hnone b hb (by simpa using heq)
  · intro hlen
    have hhead : irccmp mask (allocateBan mask (banSetter source) now).banstr = 0 := by
      show irccmp mask (strlcpy mask banLen) = 0
      rw [strlcpy_of_lt hlen]
      exact irccmp_self mask
    have hany : (allocateBan mask (banSetter source) now :: ch.list k).any
        (fun b => irccmp mask b.banstr == 0) = true :=
      List.any_eq_true.mpr ⟨_, List.mem_cons_self, by simpa using hhead⟩
    refine ⟨_, by rw [delId, list_setList_bumpFor, if_neg hne, if_pos hany], ?_⟩
    rw [list_setList_bumpFor, List.eraseP_cons_of_pos (by simpa using hhead)]

end Removing

-- ============================================================================
-- Whole runs
-- ============================================================================

theorem Server.Reachable.stored {cfg : Config} {ok : Client → Bytes → Prop} {srv : Server}
    (h : srv.Reachable cfg ok) : ∀ p k, ∀ b ∈ (srv.table.chan p).list k, b.Stored := by
  refine h.forall_chan (P := fun ch => ∀ k, ∀ b ∈ ch.list k, b.Stored) ?_ ?_
  · intro s now hs k b hb
    cases k <;> exact absurd hb List.not_mem_nil
  · exact fun client ch ch' hu hch => hu.stored hch

theorem Server.Reachable.distinct {cfg : Config} {srv : Server} (h : srv.Reachable cfg MaskOk) :
    ∀ p k, BansDistinct ((srv.table.chan p).list k) := by
  have hboth := h.forall_chan
    (P := fun ch => (∀ k, ∀ b ∈ ch.list k, b.Stored) ∧ ∀ k, BansDistinct (ch.list k)) ?_ ?_
  · exact fun p => (hboth p).2
  · refine fun s now hs => ⟨fun k b hb => ?_, fun k => ?_⟩
    · cases k <;> exact absurd hb List.not_mem_nil
    · cases k <;> exact List.Pairwise.nil
  · exact fun client ch ch' hu hch => ⟨hu.stored hch.1, hu.distinct hch.1 hch.2⟩

/-- In every run that hands `add_id` only masks that are recognised again, the
    entries of every list are distinct, every entry can be removed alone, and a
    remote mask that was added is taken back exactly when it is stored whole. -/
theorem bans_distinct_of_maskOk_run {cfg : Config} {srv : Server}
    (h : Reach (Server.step cfg) (fun s a => a.MasksOk cfg MaskOk s) Server.start srv) :
    (∀ p k, BansDistinct ((srv.table.chan p).list k)) ∧
    (∀ p k mask b, mask ≠ [] → b ∈ (srv.table.chan p).list k → b.banstr = mask →
      ∃ ch', delId (srv.table.chan p) mask k = some ch' ∧
        ch'.list k = ((srv.table.chan p).list k).erase b) ∧
    ∀ p k source mask now ch', source.myClient = false → NoNul mask → mask ≠ [] →
      addId cfg (srv.table.chan p) source mask k now = some ch' →
      ((∃ ch'', delId ch' mask k = some ch'' ∧ ch''.list k = (srv.table.chan p).list k)
        ↔ MaskOk source mask) := by
  have hdistinct := Server.Reachable.distinct h
  have hstored := Server.Reachable.stored h
  refine ⟨hdistinct, fun p k mask b hne hb hmask => delId_only hne (hdistinct p k) hb hmask, ?_⟩
  intro p k source mask now ch' hremote hnul hne hadd
  have hok : MaskOk source mask ↔ mask.length < banLen := by
    rw [MaskOk, hremote, if_neg Bool.false_ne_true]
  rw [hok]
  exact delId_addId_iff (hstored p k) hnul hne hadd

/-- The channel `#a` of a local user, before the masks arrive. -/
def hubServer : Server :=
  [Action.introduce alice, .join 0 [35, 97] [] true false 10, .introduce hub].foldl
    (Reach.perform (Server.step plainConfig)) Server.start

/-- `BMASK 10 #a b :masks`. -/
def hubBmask (masks : Bytes) : Action := .bmask 1 [49, 48] [35, 97] [98] masks 20

/-- The server afterwards. -/
def bmaskServer (masks : Bytes) : Server :=
  Reach.perform (Server.step plainConfig) hubServer (hubBmask masks)

/-- The bans `a!b@c` and `d`. -/
theorem bans_distinct_after_two :
    let l := ((bmaskServer [97, 33, 98, 64, 99, 32, 100]).table.chan 0).banlist
    BansDistinct l ∧ l.map Ban.banstr = [[100], [97, 33, 98, 64, 99]] := by
  refine ⟨(@bans_distinct_of_maskOk_run plainConfig _ ?_).1 0 .ban, by decide⟩
  have hhub : Reach (Server.step plainConfig) (fun s a => a.MasksOk plainConfig MaskOk s)
      Server.start hubServer := by
    simp only [hubServer, List.foldl_cons, List.foldl_nil]
    exact ((Reach.init.performed trivial).performed trivial).performed trivial
  refine hhub.performed ?_
  intro cl hcl _ mask hmask
  obtain rfl : hub = cl := Option.some.inj hcl
  have hall : ∀ mask ∈ bmaskMasks [97, 33, 98, 64, 99, 32, 100], mask.length < banLen := by
    decide
  rw [MaskOk, show hub.myClient = false from rfl, if_neg Bool.false_ne_true]
  exact hall mask hmask

/-- A mask of 109 bytes is added twice. -/
theorem not_bans_distinct_after_long_mask :
    ¬ ∀ srv, Reach (Server.step plainConfig) anyStep Server.start srv →
      (∀ p k, BansDistinct ((srv.table.chan p).list k)) ∧
      ∀ p k source mask now ch', source.myClient = false → NoNul mask → mask ≠ [] →
        addId plainConfig (srv.table.chan p) source mask k now = some ch' →
        ∃ ch'', delId ch' mask k = some ch'' ∧ ch''.list k = (srv.table.chan p).list k := by
  intro h
  have hreach : Reach (Server.step plainConfig) anyStep Server.start
      (bmaskServer (List.replicate 109 97 ++ 32 :: List.replicate 109 97)) :=
    (Reach.performed_all _ .init).performed trivial
  have hdistinct := (h _ hreach).1 0 .ban
  revert hdistinct
  unfold BansDistinct
  decide

/-- A mask with the lengths of a nick, user and host that `match` does not find to
    match itself. -/
def tangledMask : Bytes :=
  [42, 63, 63, 42, 63, 42, 63, 42, 63, 63, 42, 63, 42, 63, 42, 63, 63, 63, 63, 63, 63, 63, 63,
    63, 63, 63, 63, 63, 63, 33, 42, 63, 42, 63, 42, 63, 63, 63, 63, 63, 64, 42, 63, 42, 63, 42,
    63, 42, 63, 42, 63, 42, 63, 42, 63, 42, 63, 42, 63, 42, 63, 42, 63, 42, 63, 42, 63, 42, 63,
    42, 63, 42, 63, 63, 63, 63, 63, 63, 63, 63, 63, 63, 63, 63, 63, 63, 63, 63, 63, 63, 63, 63,
    63, 63, 63, 63, 63, 63, 63, 63, 63, 63, 63, 97]

example :
    prettyMask 0 tangledMask = some (tangledMask, 105) ∧
      matchMask tangledMask tangledMask = false := by
  decide +kernel

end Bluebox.Chan
