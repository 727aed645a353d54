/-
  Bluebox.Channel.Update

  What a command can do to a channel, said once.  Every command is a sequence
  of `Update`s; an invariant of channels is proved per update and then holds
  across all commands.

  `ok` restricts the masks that reach `add_id`, for invariants that need such a
  restriction.
-/
import Mathlib.Logic.Relation
import Bluebox.Channel.Join

namespace Bluebox.Chan

open Bluebox.Lib

-- ============================================================================
-- Valid modes
-- ============================================================================

/-- The modes a channel can have: nine bits, an `int` and a key that fits its
    buffer. -/
structure Mode.Valid (m : Mode) : Prop where
  bits : m.mode.toNat < 2 ^ 9
  limit : IsInt32 m.limit
  noSpace : (32 : UInt8) ∉ m.key
  noNul : NoNul m.key
  length_lt : m.key.length < keyLen

theorem Mode.valid_none : Mode.none.Valid := ⟨by decide, by decide, by decide, by decide, by decide⟩

theorem toNat_or_lt {a b : UInt32} (ha : a.toNat < 2 ^ 9) (hb : b.toNat < 2 ^ 9) :
    (a ||| b).toNat < 2 ^ 9 := by
  rw [UInt32.toNat_or]
  exact Nat.or_lt_two_pow ha hb

theorem toNat_and_lt {a b : UInt32} (ha : a.toNat < 2 ^ 9) : (a &&& b).toNat < 2 ^ 9 := by
  rw [UInt32.toNat_and]
  exact Nat.lt_of_le_of_lt Nat.and_le_left ha

theorem Mode.Valid.join {a b : Mode} (ha : a.Valid) (hb : b.Valid) : (a.join b).Valid := by
  have hkey : strMax a.key b.key = a.key ∨ strMax a.key b.key = b.key := by
    unfold strMax
    split
    · exact Or.inr rfl
    · exact Or.inl rfl
  have hlimit : IsInt32 (if b.limit > a.limit then b.limit else a.limit) := by
    split
    · exact hb.limit
    · exact ha.limit
  refine ⟨toNat_or_lt ha.bits hb.bits, hlimit, ?_, ?_, ?_⟩ <;> simp only [Mode.join]
  · rcases hkey with h | h <;> rw [h]
    · exact ha.noSpace
    · exact hb.noSpace
  · rcases hkey with h | h <;> rw [h]
    · exact ha.noNul
    · exact hb.noNul
  · rcases hkey with h | h <;> rw [h]
    · exact ha.length_lt
    · exact hb.length_lt

-- ============================================================================
-- Updates
-- ============================================================================

/-- A change of a membership that the cached verdict does not notice. -/
def KeepsCache (f : Membership → Membership) : Prop :=
  ∀ m, (f m).clientP = m.clientP ∧ (f m).banSerial = m.banSerial ∧
    (f m).canSendBanned = m.canSendBanned

/-- The elementary changes of a channel. -/
inductive Update (cfg : Config) (client : Nat → Option Client) (ok : Client → Bytes → Prop) :
    Channel → Channel → Prop
  | mode {ch : Channel} (m : Mode) (h : ch.mode.Valid → m.Valid) :
      Update cfg client ok ch { ch with mode := m }
  | stamp {ch : Channel} (ts : Int) : Update cfg client ok ch { ch with channelts := ts }
  | status {ch : Channel} (f : Membership → Membership) (hf : KeepsCache f) :
      Update cfg client ok ch { ch with members := ch.members.map f }
  | enter {ch : Channel} (c : Nat) (fl : UInt8) (hc : ch.isMember c = false)
      (hfl : fl &&& chflBanned = 0) (hcl : (client c).isSome) :
      Update cfg client ok ch (addUserToChannel ch c fl)
  | leave {ch : Channel} (c : Nat) :
      Update cfg client ok ch { ch with members := ch.members.filter fun m => m.clientP != c }
  | add {ch ch' : Channel} (source : Client) (mask : Bytes) (k : BanType) (now : Int)
      (hok : ok source mask) (hnul : NoNul mask)
      (hlen : source.myClient = true → mask.length < banLen)
      (h : addId cfg ch source mask k now = some ch') : Update cfg client ok ch ch'
  | del {ch ch' : Channel} (mask : Bytes) (k : BanType) (h : delId ch mask k = some ch') :
      Update cfg client ok ch ch'
  | reset {ch : Channel} : Update cfg client ok ch (removeBanLists ch)
  | cache {ch : Channel} (c : Nat) (who : Client) (h : client c = some who) :
      Update cfg client ok ch (ch.modifyMember c (cacheVerdict cfg ch who))
  | forget {ch : Channel} (c : Nat) : Update cfg client ok ch (ch.modifyMember c forgetVerdict)

/-- Any number of them. -/
abbrev Updates (cfg : Config) (client : Nat → Option Client) (ok : Client → Bytes → Prop) :
    Channel → Channel → Prop :=
  Relation.ReflTransGen (Update cfg client ok)

/-- What every update keeps, all updates keep. -/
theorem Updates.invariant {cfg : Config} {client : Nat → Option Client}
    {ok : Client → Bytes → Prop} {P : Channel → Prop}
    (hstep : ∀ ch ch', Update cfg client ok ch ch' → P ch → P ch')
    {ch ch' : Channel} (h : Updates cfg client ok ch ch') (hp : P ch) : P ch' := by
  induction h with
  | refl => exact hp
  | tail _ hu ih => exact hstep _ _ hu ih

section Invariants

variable {cfg : Config} {client : Nat → Option Client} {ok : Client → Bytes → Prop}
variable {ch ch' : Channel}

theorem Update.chname (h : Update cfg client ok ch ch') : ch'.chname = ch.chname := by
  cases h with
  | mode => rfl
  | stamp => rfl
  | status => rfl
  | enter => rfl
  | leave => rfl
  | add source mask k now hok hnul hlen h =>
    obtain ⟨-, rfl⟩ := addId_eq_some h
    exact chname_setList_bumpFor ..
  | del mask k h =>
    rw [delId_eq_some h]
    exact chname_setList_bumpFor ..
  | reset => rfl
  | cache => rfl
  | forget => rfl

/-- No update renames a channel. -/
theorem Updates.chname (h : Updates cfg client ok ch ch') : ch'.chname = ch.chname :=
  Updates.invariant (P := fun x => x.chname = ch.chname)
    (fun _ _ hu hx => hu.chname.trans hx) h rfl

theorem Update.modeValid (h : Update cfg client ok ch ch') (hv : ch.mode.Valid) :
    ch'.mode.Valid := by
  cases h with
  | mode m hm => exact hm hv
  | stamp => exact hv
  | status => exact hv
  | enter => exact hv
  | leave => exact hv
  | add source mask k now hok hnul hlen h =>
    obtain ⟨-, rfl⟩ := addId_eq_some h
    rw [mode_setList_bumpFor]
    exact hv
  | del mask k h =>
    rw [delId_eq_some h, mode_setList_bumpFor]
    exact hv
  | reset => exact hv
  | cache => exact hv
  | forget => exact hv

end Invariants

-- ============================================================================
-- The mode handlers
-- ============================================================================

section Fields

variable (w : Walk) (call : Call)

@[simp] theorem Walk.err_ch (e : UInt32) : (w.err e).ch = w.ch := rfl

@[simp] theorem Walk.push_ch (m : ChModeChange) : (w.push m).ch = w.ch := rfl

@[simp] theorem Walk.count_ch (n : Nat) : (w.count call n).1.ch = w.ch := by
  unfold Walk.count
  split <;> rfl

@[simp] theorem Walk.count_dir (n : Nat) : (w.count call n).1.dir = w.dir := by
  unfold Walk.count
  split <;> rfl

end Fields

section Handlers

variable {cfg : Config} {client : Nat → Option Client} {ok : Client → Bytes → Prop}
variable {w : Walk} {call : Call} {c : UInt8}

theorem setBit_update {bit : UInt32} (h : bit.toNat < 2 ^ 9) :
    Update cfg client ok w.ch (w.setBit bit).ch :=
  .mode _ fun hv => ⟨toNat_or_lt hv.bits h, hv.limit, hv.noSpace, hv.noNul, hv.length_lt⟩

theorem clearBit_update (bit : UInt32) : Update cfg client ok w.ch (w.clearBit bit).ch :=
  .mode _ fun hv => ⟨toNat_and_lt hv.bits, hv.limit, hv.noSpace, hv.noNul, hv.length_lt⟩

theorem setLimit_update {limit : Int} (h : IsInt32 limit) :
    Update cfg client ok w.ch (w.setLimit limit).ch :=
  .mode _ fun hv => ⟨hv.bits, h, hv.noSpace, hv.noNul, hv.length_lt⟩

theorem setKey_update {key : Bytes} (hs : (32 : UInt8) ∉ key) (hn : NoNul key)
    (hl : key.length < keyLen) : Update cfg client ok w.ch (w.setKey key).ch :=
  .mode _ fun hv => ⟨hv.bits, hv.limit, hs, hn, hl⟩

theorem chmSimple_updates {modeType : UInt32} (h : modeType.toNat < 2 ^ 9) (halfop : Bool) :
    Updates cfg client ok w.ch (chmSimple call c modeType halfop w).ch := by
  have hch : (w.count call (9 + maxModeParams)).1.ch = w.ch := Walk.count_ch ..
  unfold chmSimple
  split
  · exact .refl
  · generalize w.count call (9 + maxModeParams) = r at hch
    obtain ⟨w', full⟩ := r
    dsimp only at hch ⊢
    rw [← hch]
    split
    · exact .refl
    · split
      · exact .single (setBit_update h)
      · split
        · exact .single (clearBit_update modeType)
        · exact .refl

theorem chmRegonly_updates : Updates cfg client ok w.ch (chmRegonly call c w).ch := by
  unfold chmRegonly
  split
  · exact .refl
  · split
    · exact .refl
    · split
      · exact .refl
      · exact .single (setBit_update (by decide))
    · split
      · exact .refl
      · exact .single (clearBit_update _)

theorem chmSslonly_updates : Updates cfg client ok w.ch (chmSslonly call c w).ch := by
  unfold chmSslonly
  split
  · exact .refl
  · split
    · exact .refl
    · split
      · exact .refl
      · split
        · exact .refl
        · exact .single (setBit_update (by decide))
    · split
      · exact .refl
      · exact .single (clearBit_update _)

theorem chmLimit_updates : Updates cfg client ok w.ch (chmLimit call c w).ch := by
  unfold chmLimit
  split
  · exact .refl
  · split
    · exact .refl
    · split
      · dsimp only
        split
        · exact .refl
        · exact .single (setLimit_update (toInt32_isInt32 _))
      · exact .refl
    · split
      · exact .refl
      · exact .single (setLimit_update (by decide))

/-- A local key has only printable characters. -/
theorem fixKey_clean (arg : Bytes) : (32 : UInt8) ∉ fixKey arg ∧ NoNul (fixKey arg) := by
  constructor <;> intro h <;> have h' := List.of_mem_filter h <;> exact absurd h' (by decide)

theorem fixKeyRemote_clean (arg : Bytes) :
    (32 : UInt8) ∉ fixKeyRemote arg ∧ NoNul (fixKeyRemote arg) := by
  constructor
  · intro h
    have h' := List.of_mem_filter (List.takeWhile_subset _ h)
    exact absurd h' (by decide)
  · intro h
    have h' := List.mem_takeWhile_imp h
    exact absurd h' (by decide)

theorem chmKey_updates : Updates cfg client ok w.ch (chmKey call c w).ch := by
  unfold chmKey
  split
  · exact .refl
  · split
    · exact .refl
    · split
      · dsimp only
        generalize hk : (if call.source.myClient = true then fixKey (w.arg call)
          else fixKeyRemote (w.arg call)) = key
        have hclean : (32 : UInt8) ∉ key ∧ NoNul key := by
          rw [← hk]
          split
          · exact fixKey_clean _
          · exact fixKeyRemote_clean _
        split
        · exact .refl
        · exact .single (setKey_update (w := { w with parn := w.parn + 1 })
            (fun hmem => hclean.1 (List.mem_of_mem_take hmem)) (hclean.2.take _)
            (strlcpy_length_lt key (by decide)))
      · exact .refl
    · have hch : (if w.parn < call.parv.length then { w with parn := w.parn + 1 } else w).ch = w.ch := by
        split <;> rfl
      generalize (if w.parn < call.parv.length then { w with parn := w.parn + 1 } else w) = v at hch
      dsimp only
      rw [← hch]
      split
      · exact .refl
      · exact .single (setKey_update (w := { v with modeChanges := splatKeys v.modeChanges })
          (by decide) (by decide) (by decide))

/-- Setting a bit leaves those outside it alone. -/
theorem or_and_of_apart {fl bit mask : UInt8} (h : bit &&& mask = 0) : (fl ||| bit) &&& mask = fl &&& mask := by
  have hbits : bit.toBitVec &&& mask.toBitVec = 0 := congrArg UInt8.toBitVec h
  rw [← UInt8.toBitVec_inj, UInt8.toBitVec_and, UInt8.toBitVec_or, BitVec.and_or_distrib_right, hbits]
  exact BitVec.or_zero

/-- The status bits are not the bit of the cache. -/
theorem statusBits_banned : ∀ bit ∈ [chflChanop, chflHalfop, chflVoice], ∀ fl : UInt8,
    (fl ||| bit) &&& chflBanned = fl &&& chflBanned ∧
    ((fl ||| bit) &&& ~~~chflDeopped) &&& chflBanned = fl &&& chflBanned ∧
    (fl &&& ~~~bit) &&& chflBanned = fl &&& chflBanned := by
  intro bit hbit fl
  have hall : ([chflChanop, chflHalfop, chflVoice].all fun bit =>
      bit &&& chflBanned == 0 && ~~~bit &&& chflBanned == chflBanned) = true := by decide
  have hbits := List.all_eq_true.mp hall bit hbit
  rw [Bool.and_eq_true, beq_iff_eq, beq_iff_eq] at hbits
  obtain ⟨hbit, hnot⟩ := hbits
  have hdeopped : ~~~chflDeopped &&& chflBanned = chflBanned := by decide
  refine ⟨or_and_of_apart hbit, ?_, ?_⟩
  · rw [UInt8.and_assoc, hdeopped, or_and_of_apart hbit]
  · rw [UInt8.and_assoc, hnot]

/-- Changing the flags of one member without its cached verdict. -/
theorem modifyMember_update {ch : Channel} (targ : Nat) (g : UInt8 → UInt8)
    (hg : ∀ fl, g fl &&& chflBanned = fl &&& chflBanned) :
    Update cfg client ok ch (ch.modifyMember targ fun m => { m with flags := g m.flags }) := by
  refine .status _ fun m => ?_
  split
  · refine ⟨rfl, rfl, ?_⟩
    show (g m.flags &&& chflBanned != 0) = (m.flags &&& chflBanned != 0)
    rw [hg]
  · exact ⟨rfl, rfl, rfl⟩

theorem chmStatus_updates {st : StatusMode} (h : st.bit ∈ [chflChanop, chflHalfop, chflVoice]) :
    Updates cfg client ok w.ch (chmStatus st call c w).ch := by
  have hbits := statusBits_banned st.bit h
  unfold chmStatus
  split
  · exact .refl
  · split
    · exact .refl
    · dsimp only
      split
      · exact .refl
      · split
        · exact .refl
        · split
          · exact .refl
          · rename_i targ targP _ _ m _
            have hch := Walk.count_ch { w with parn := w.parn + 1 } call maxModeParams
            generalize Walk.count { w with parn := w.parn + 1 } call maxModeParams = r at hch
            obtain ⟨v, full⟩ := r
            dsimp only at hch ⊢
            rw [← hch]
            split
            · exact .refl
            · split
              · split
                · exact .refl
                · by_cases hu : st.undeop = true
                  · simp only [hu, if_true]
                    exact .single (modifyMember_update targ
                      (fun fl => (fl ||| st.bit) &&& ~~~chflDeopped) fun fl => (hbits fl).2.1)
                  · simp only [hu]
                    exact .single (modifyMember_update targ (· ||| st.bit) fun fl => (hbits fl).1)
              · split
                · exact .refl
                · split
                  · exact .refl
                  · exact .single (modifyMember_update targ (· &&& ~~~st.bit)
                      fun fl => (hbits fl).2.2)

theorem modeTable_updates : Updates cfg client ok w.ch (modeTable call c w).ch := by
  unfold modeTable
  split
  · exact chmSslonly_updates
  · exact chmStatus_updates (by decide)
  · exact chmSimple_updates (by decide) _
  · exact chmKey_updates
  · exact chmLimit_updates
  · exact chmSimple_updates (by decide) _
  · exact chmSimple_updates (by decide) _
  · exact chmStatus_updates (by decide)
  · exact chmSimple_updates (by decide) _
  · exact chmRegonly_updates
  · exact chmSimple_updates (by decide) _
  · exact chmSimple_updates (by decide) _
  · exact chmStatus_updates (by decide)
  · exact chmSimple_updates (by decide) _
  · exact .refl

end Handlers

-- ============================================================================
-- Masks
-- ============================================================================

theorem noNul_of_subset {s t : Bytes} (h : NoNul t) (hs : s ⊆ t) : NoNul s := fun h0 => h (hs h0)

theorem NoNul.append {s t : Bytes} (hs : NoNul s) (ht : NoNul t) : NoNul (s ++ t) := fun h =>
  (List.mem_append.mp h).elim hs ht

theorem NoNul.cons {b : UInt8} {s : Bytes} (hb : b ≠ 0) (hs : NoNul s) : NoNul (b :: s) := fun h =>
  (List.mem_cons.mp h).elim (fun h0 => hb h0.symm) hs

theorem orSplat_noNul {s : Bytes} (h : NoNul s) : NoNul (orSplat s) := by
  unfold orSplat
  split
  · decide
  · exact h

theorem maskParts_noNul {mask : Bytes} (h : NoNul mask) :
    NoNul (maskParts mask).1 ∧ NoNul (maskParts mask).2.1 ∧ NoNul (maskParts mask).2.2 := by
  have hstar : NoNul [star] := by decide
  have hpart : ∀ {s : Bytes}, s ⊆ mask → NoNul (orSplat s) := fun hs =>
    orSplat_noNul (noNul_of_subset h hs)
  unfold maskParts
  split
  · rename_i left host heq
    obtain ⟨hl, hr⟩ := strchr_subset heq
    split
    · rename_i nick user heq'
      obtain ⟨hn, hu⟩ := strchr_subset heq'
      exact ⟨hpart (List.Subset.trans hn hl), hpart (List.Subset.trans hu hl), hpart hr⟩
    · exact ⟨hstar, hpart hl, hpart hr⟩
  · split
    · rename_i nick user heq'
      obtain ⟨hn, hu⟩ := strchr_subset heq'
      exact ⟨hpart hn, hpart hu, hstar⟩
    · split
      · exact ⟨hstar, hstar, orSplat_noNul h⟩
      · exact ⟨orSplat_noNul h, hstar, hstar⟩

theorem checkString_noNul {s : Bytes} (h : NoNul s) : NoNul (checkString s) := by
  unfold checkString
  split
  · decide
  · exact noNul_of_subset h (List.takeWhile_subset _)

/-- A local mask fits into the entry. -/
theorem prettyMask_length {pos pos' : Nat} {idmask r : Bytes}
    (hp : prettyMask pos idmask = some (r, pos')) : r.length < banLen := by
  unfold prettyMask at hp
  dsimp only at hp
  split at hp
  · cases hp
  · obtain ⟨rfl, -⟩ := Prod.mk.inj (Option.some.inj hp)
    simp only [userHost, List.length_append, List.length_cons, List.length_take, banLen, nickLen,
      userLen, hostLen]
    omega

theorem prettyMask_noNul {pos pos' : Nat} {idmask r : Bytes} (h : NoNul idmask)
    (hp : prettyMask pos idmask = some (r, pos')) : NoNul r := by
  have hmask := noNul_of_subset (checkString_noNul h) (collapse_sublist _).1.subset
  have hparts := maskParts_noNul hmask
  unfold prettyMask at hp
  dsimp only at hp
  split at hp
  · cases hp
  · obtain ⟨rfl, -⟩ := Prod.mk.inj (Option.some.inj hp)
    unfold userHost
    refine NoNul.append (NoNul.append (hparts.1.take _) (NoNul.cons (by decide) ?_))
      (NoNul.cons (by decide) (hparts.2.2.take _))
    exact hparts.2.1.take _

-- ============================================================================
-- Whole mode commands
-- ============================================================================

section Commands

variable {cfg : Config} {client : Nat → Option Client} {ok : Client → Bytes → Prop}
variable {call : Call}

/-- The first part of `chm_ban` leaves the channel alone. -/
theorem banRequest_spec {k : BanType} {w w' : Walk} {r : Option (Bytes × Bytes)}
    (hparv : ∀ t ∈ call.parv, NoNul t) (h : banRequest call k w = some (w', r)) :
    w'.ch = w.ch ∧ ∀ mask raw, r = some (mask, raw) →
      NoNul mask ∧ (call.source.myClient = true → mask.length < banLen) := by
  have harg : ∀ v : Walk, NoNul (v.arg call) := by
    intro v
    unfold Walk.arg
    rw [List.getD_eq_getElem?_getD]
    cases hget : call.parv[v.parn]? with
    | none => exact List.not_mem_nil
    | some t => exact hparv t (List.mem_of_getElem? hget)
  have hcount := Walk.count_ch w call maxModeParams
  unfold banRequest at h
  generalize w.count call maxModeParams = p at h hcount
  obtain ⟨v, full⟩ := p
  dsimp only at h hcount
  split at h
  · obtain ⟨rfl, rfl⟩ := Prod.mk.inj (Option.some.inj h)
    exact ⟨rfl, fun _ _ hr => by cases hr⟩
  · split at h
    · split at h
      · obtain ⟨rfl, rfl⟩ := Prod.mk.inj (Option.some.inj h)
        exact ⟨rfl, fun _ _ hr => by cases hr⟩
      · split at h <;>
          · obtain ⟨rfl, rfl⟩ := Prod.mk.inj (Option.some.inj h)
            exact ⟨rfl, fun _ _ hr => by cases hr⟩
    · split at h
      · obtain ⟨rfl, rfl⟩ := Prod.mk.inj (Option.some.inj h)
        exact ⟨rfl, fun _ _ hr => by cases hr⟩
      · split at h
        · obtain ⟨rfl, rfl⟩ := Prod.mk.inj (Option.some.inj h)
          exact ⟨hcount, fun _ _ hr => by cases hr⟩
        · split at h
          · obtain ⟨rfl, rfl⟩ := Prod.mk.inj (Option.some.inj h)
            exact ⟨hcount, fun _ _ hr => by cases hr⟩
          · split at h
            · rename_i hremote
              split at h
              · obtain ⟨rfl, rfl⟩ := Prod.mk.inj (Option.some.inj h)
                exact ⟨hcount, fun _ _ hr => by cases hr⟩
              · obtain ⟨rfl, rfl⟩ := Prod.mk.inj (Option.some.inj h)
                refine ⟨hcount, fun mask raw hr => ?_⟩
                obtain ⟨rfl, -⟩ := Prod.mk.inj (Option.some.inj hr)
                exact ⟨harg v, fun hmy => by simp [hmy] at hremote⟩
            · split at h
              · cases h
              · rename_i mask pos heq
                split at h
                · obtain ⟨rfl, rfl⟩ := Prod.mk.inj (Option.some.inj h)
                  exact ⟨hcount, fun _ _ hr => by cases hr⟩
                · obtain ⟨rfl, rfl⟩ := Prod.mk.inj (Option.some.inj h)
                  refine ⟨hcount, fun mask raw hr => ?_⟩
                  obtain ⟨rfl, -⟩ := Prod.mk.inj (Option.some.inj hr)
                  exact ⟨prettyMask_noNul (harg v) heq, fun _ => prettyMask_length heq⟩

theorem applyBan_updates {c : UInt8} {k : BanType} {w : Walk} {mask raw : Bytes}
    (hcfg : call.cfg = cfg) (hnul : NoNul mask)
    (hlen : call.source.myClient = true → mask.length < banLen)
    (hok : w.dir = .add → ok call.source mask) :
    Updates cfg client ok w.ch (applyBan call c k w mask raw).ch := by
  unfold applyBan
  by_cases hdir : w.dir = .add
  · rw [if_pos hdir]
    split
    · exact .refl
    · rename_i ch heq
      exact .single (.add _ _ _ _ (hok hdir) hnul hlen (by rw [← hcfg]; exact heq))
  · rw [if_neg hdir]
    split
    · rename_i ch heq
      exact .single (.del _ _ heq)
    · split
      · rename_i ch heq
        exact .single (.del _ _ heq)
      · exact .refl

/-- Every mask the command hands to `add_id` is allowed. -/
def LettersOk (ok : Client → Bytes → Prop) (call : Call) : Bytes → Walk → Prop
  | [], _ => True
  | c :: cs, w =>
    (∀ k w' mask raw, banLetter c = some k → banRequest call k w = some (w', some (mask, raw)) →
      w'.dir = .add → ok call.source mask) ∧
    ∀ w', letterStep call c w = some w' → LettersOk ok call cs w'

theorem lettersOk_of_forall (h : ∀ mask, ok call.source mask) (cs : Bytes) :
    ∀ w, LettersOk ok call cs w := by
  induction cs with
  | nil => exact fun _ => trivial
  | cons c cs ih => exact fun w => ⟨fun _ _ _ _ _ _ _ => h _, fun w' _ => ih w'⟩

theorem letterStep_updates {c : UInt8} {cs : Bytes} {w w' : Walk} (hcfg : call.cfg = cfg)
    (hparv : ∀ t ∈ call.parv, NoNul t) (hok : LettersOk ok call (c :: cs) w)
    (h : letterStep call c w = some w') : Updates cfg client ok w.ch w'.ch := by
  unfold letterStep at h
  split at h
  · obtain rfl := Option.some.inj h
    exact .refl
  · split at h
    · obtain rfl := Option.some.inj h
      exact .refl
    · split at h
      · obtain rfl := Option.some.inj h
        exact .refl
      · split at h
        · rename_i k hk
          unfold chmBan at h
          split at h
          · cases h
          · rename_i v heq
            obtain rfl := Option.some.inj h
            rw [(banRequest_spec hparv heq).1]
          · rename_i v mask raw heq
            obtain rfl := Option.some.inj h
            obtain ⟨hch, hmask⟩ := banRequest_spec hparv heq
            rw [← hch]
            obtain ⟨hnul, hlen⟩ := hmask mask raw rfl
            exact applyBan_updates hcfg hnul hlen (hok.1 k v mask raw hk heq)
        · obtain rfl := Option.some.inj h
          exact modeTable_updates

theorem letters_updates (hcfg : call.cfg = cfg) (hparv : ∀ t ∈ call.parv, NoNul t) (cs : Bytes) :
    ∀ {w w' : Walk}, LettersOk ok call cs w → letters call cs w = some w' →
      Updates cfg client ok w.ch w'.ch := by
  induction cs with
  | nil =>
    intro w w' _ h
    obtain rfl := Option.some.inj h
    exact .refl
  | cons c cs ih =>
    intro w w' hok h
    rw [letters] at h
    split at h
    · cases h
    · rename_i v hv
      exact (letterStep_updates hcfg hparv hok hv).trans (ih (hok.2 v hv) h)

/-- Every mask of a `BMASK` is allowed. -/
theorem bmaskWalk_updates {source : Client} {k : BanType} {now : Int} (masks : List Bytes)
    (hremote : source.myClient = false) (hnul : ∀ mask ∈ masks, NoNul mask)
    (hok : ∀ mask ∈ masks, ok source mask) :
    ∀ ch, Updates cfg client ok ch (bmaskWalk cfg source k now ch masks) := by
  induction masks with
  | nil => exact fun _ => .refl
  | cons mask masks ih =>
    intro ch
    have ih' := ih (fun x hx => hnul x (List.mem_cons_of_mem _ hx))
      (fun x hx => hok x (List.mem_cons_of_mem _ hx))
    unfold bmaskWalk at ih' ⊢
    rw [List.foldl_cons]
    cases hadd : addId cfg ch source mask k now with
    | none => exact ih' ch
    | some ch' =>
      exact .head (.add source mask k now (hok mask List.mem_cons_self)
        (hnul mask List.mem_cons_self) (fun hmy => by rw [hremote] at hmy; cases hmy) hadd) (ih' ch')

end Commands

end Bluebox.Chan
