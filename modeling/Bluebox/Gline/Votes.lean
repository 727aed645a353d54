/-
  Bluebox.Gline.Votes

  A G-line needs three votes, and three votes are enough.

  The first part is an invariant over runs: each record of `pending_glines` is backed
  by the one or two votes that it holds.  For the second part a record is followed
  from the first vote to the third: other events leave it alone, since only votes for
  its mask put that mask among the G-lines.
-/
import Bluebox.Gline.Basic

namespace Bluebox.Gline

open Bluebox.Lib

-- ============================================================================
-- Votes that count
-- ============================================================================

/-- The same mask, up to case. -/
def SameMask (a b : Mask) : Prop := irccmp a.user b.user = 0 ∧ irccmp a.host b.host = 0

/-- Different operators on different servers. -/
def DistinctVoters (a b : Oper) : Prop :=
  ¬ (irccmp a.username b.username = 0 ∧ irccmp a.host b.host = 0) ∧ irccmp a.server b.server ≠ 0

/-- Three votes for a mask by different operators on different servers, each less than
    `GLINE_PENDING_EXPIRE` after the one before. -/
structure Majority (v₁ v₂ v₃ : Vote) : Prop where
  mask₁₂ : SameMask v₁.mask v₂.mask
  mask₁₃ : SameMask v₁.mask v₃.mask
  voters₁₂ : DistinctVoters v₁.oper v₂.oper
  voters₁₃ : DistinctVoters v₁.oper v₃.oper
  voters₂₃ : DistinctVoters v₂.oper v₃.oper
  timed₁₂ : v₂.time < v₁.time + glinePendingExpire
  timed₂₃ : v₃.time < v₂.time + glinePendingExpire

/-- The event is a vote for a mask. -/
def Event.votesFor (mask : Mask) : Event → Prop
  | .vote v => SameMask mask v.mask
  | _ => False

-- ============================================================================
-- Masks
-- ============================================================================

theorem SameMask.symm {a b : Mask} (h : SameMask a b) : SameMask b a :=
  ⟨(irccmp_eq_zero_comm _ _).mp h.1, (irccmp_eq_zero_comm _ _).mp h.2⟩

/-- A user and a host are the mask, up to case. -/
def forMask (mask : Mask) (user host : Bytes) : Bool :=
  irccmp user mask.user == 0 && irccmp host mask.host == 0

theorem forMask_iff {mask : Mask} {user host : Bytes} :
    forMask mask user host = true ↔ irccmp user mask.user = 0 ∧ irccmp host mask.host = 0 := by
  unfold forMask
  rw [Bool.and_eq_true, beq_iff_eq, beq_iff_eq]

theorem forMask_congr {a b : Mask} (h : SameMask a b) {user host : Bytes} (hu : NoNul user)
    (hh : NoNul host) : forMask b user host = forMask a user host := by
  rw [Bool.eq_iff_iff, forMask_iff, forMask_iff]
  constructor
  · rintro ⟨huser, hhost⟩
    exact ⟨irccmp_eq_zero_trans hu b.user_noNul a.user_noNul huser h.symm.1,
      irccmp_eq_zero_trans hh b.host_noNul a.host_noNul hhost h.symm.2⟩
  · rintro ⟨huser, hhost⟩
    exact ⟨irccmp_eq_zero_trans hu a.user_noNul b.user_noNul huser h.1,
      irccmp_eq_zero_trans hh a.host_noNul b.host_noNul hhost h.2⟩

theorem forMask_disjoint {a b : Mask} (h : ¬ SameMask a b) {user host : Bytes} (hu : NoNul user)
    (hh : NoNul host) (hfor : forMask b user host = true) : forMask a user host = false := by
  rw [Bool.eq_false_iff]
  intro hfor'
  rw [forMask_iff] at hfor hfor'
  refine h ⟨?_, ?_⟩
  · exact irccmp_eq_zero_trans a.user_noNul hu b.user_noNul
      ((irccmp_eq_zero_comm _ _).mp hfor'.1) hfor.1
  · exact irccmp_eq_zero_trans a.host_noNul hh b.host_noNul
      ((irccmp_eq_zero_comm _ _).mp hfor'.2) hfor.2

-- ============================================================================
-- The votes in a record
-- ============================================================================

/-- The first vote of a record. -/
structure Pending.First (p : Pending) (v : Vote) : Prop where
  user : p.operUser1 = v.oper.username
  host : p.operHost1 = v.oper.host
  server : irccmp p.operServer1 v.oper.server = 0
  server_noNul : NoNul p.operServer1
  maskUser : p.user = v.mask.user
  maskHost : p.host = v.mask.host
  reason : p.reason1 = v.reason

/-- The second vote of a record. -/
structure Pending.Second (p : Pending) (v : Vote) : Prop where
  user : p.operUser2 = v.oper.username
  host : p.operHost2 = v.oper.host
  server : irccmp p.operServer2 v.oper.server = 0
  server_noNul : NoNul p.operServer2
  time : p.lastGlineTime = v.time

/-- What a test for an earlier vote says about the operators. -/
theorem distinct_iff {user host server : Bytes} {a b : Oper} (huser : user = a.username)
    (hhost : host = a.host) (hserver : irccmp server a.server = 0) (hnoNul : NoNul server) :
    ((irccmp user b.username == 0 && irccmp host b.host == 0) || irccmp server b.server == 0) = false ↔
      DistinctVoters a b := by
  subst huser hhost
  have hsame : irccmp server b.server = 0 ↔ irccmp a.server b.server = 0 := by
    constructor
    · intro h
      exact irccmp_eq_zero_trans a.server_noNul hnoNul b.server_noNul
        ((irccmp_eq_zero_comm _ _).mp hserver) h
    · intro h
      exact irccmp_eq_zero_trans hnoNul a.server_noNul b.server_noNul hserver h
  unfold DistinctVoters
  rw [Bool.or_eq_false_iff, beq_eq_false_iff_ne, Bool.eq_false_iff, Ne, Bool.and_eq_true,
    beq_iff_eq, beq_iff_eq, Ne, hsame]

theorem Pending.First.voted_iff {p : Pending} {v : Vote} (h : p.First v) (oper : Oper) :
    p.votedFirst oper = false ↔ DistinctVoters v.oper oper :=
  distinct_iff h.user h.host h.server h.server_noNul

theorem Pending.Second.voted_iff {p : Pending} {v : Vote} (h : p.Second v) (oper : Oper) :
    p.votedSecond oper = false ↔ DistinctVoters v.oper oper :=
  distinct_iff h.user h.host h.server h.server_noNul

theorem Pending.First.isFor {p : Pending} {v : Vote} (h : p.First v) (mask : Mask) :
    p.isFor mask = true ↔ SameMask v.mask mask := by
  unfold Pending.isFor SameMask
  rw [Bool.and_eq_true, beq_iff_eq, beq_iff_eq, h.maskUser, h.maskHost]

theorem scacheAdd_spec {scache : List Bytes} (h : ∀ n ∈ scache, NoNul n) {name : Bytes}
    (hname : NoNul name) :
    irccmp (scacheAdd scache name).1 name = 0 ∧ NoNul (scacheAdd scache name).1 ∧
      ∀ n ∈ (scacheAdd scache name).2, NoNul n := by
  unfold scacheAdd
  split
  · rename_i n hn
    have heq := List.find?_some hn
    exact ⟨eq_of_beq heq, h n (List.mem_of_find?_eq_some hn), h⟩
  · refine ⟨irccmp_self name, hname, fun n hn => ?_⟩
    obtain rfl | hn := List.mem_cons.mp hn
    · exact hname
    · exact h n hn

theorem first_newPending (v : Vote) {server : Bytes} (hserver : irccmp server v.oper.server = 0)
    (hnoNul : NoNul server) : (newPending v server).First v where
  user := strlcpy_of_lt (Nat.lt_succ_of_le v.oper.username_fits)
  host := strlcpy_of_lt (Nat.lt_succ_of_le v.oper.host_fits)
  server := hserver
  server_noNul := hnoNul
  maskUser := strlcpy_of_lt (Nat.lt_succ_of_le v.mask.user_fits)
  maskHost := strlcpy_of_lt (Nat.lt_succ_of_le v.mask.host_fits)
  reason := rfl

theorem second_second (v : Vote) {server : Bytes} (hserver : irccmp server v.oper.server = 0)
    (hnoNul : NoNul server) (p : Pending) : (p.second v server).Second v where
  user := strlcpy_of_lt (Nat.lt_succ_of_le v.oper.username_fits)
  host := strlcpy_of_lt (Nat.lt_succ_of_le v.oper.host_fits)
  server := hserver
  server_noNul := hnoNul
  time := rfl

theorem Pending.First.second {p : Pending} {v w : Vote} (h : p.First v) (server : Bytes) :
    (p.second w server).First v := ⟨h.user, h.host, h.server, h.server_noNul, h.maskUser, h.maskHost, h.reason⟩

-- ============================================================================
-- majority_gline
-- ============================================================================

variable {cfg : Config}

/-- What a vote can do, once the records that expired are gone. -/
theorem majorityGline_cases (cfg : Config) (s : State) (v : Vote) :
    s.majorityGline cfg v = (s.expirePendingGlines v.time, none) ∨
    (∃ p, (s.expirePendingGlines v.time).pendingGlines.find? (fun p => p.isFor v.mask) = some p ∧
      p.votedFirst v.oper = false ∧ p.operUser2 ≠ [] ∧ p.votedSecond v.oper = false ∧
      s.majorityGline cfg v = (((s.expirePendingGlines v.time).setLocalGline cfg v.mask p.reason1
        v.time).expirePendingGlines v.time, some p.reason1)) ∨
    (∃ p, (s.expirePendingGlines v.time).pendingGlines.find? (fun p => p.isFor v.mask) = some p ∧
      p.votedFirst v.oper = false ∧ p.operUser2 = [] ∧
      s.majorityGline cfg v = ((s.expirePendingGlines v.time).setPending
        (updateFirst (fun p => p.isFor v.mask)
          (Pending.second v (scacheAdd s.scache v.oper.server).1)
          (s.expirePendingGlines v.time).pendingGlines)
        (scacheAdd s.scache v.oper.server).2, none)) ∨
    ((s.expirePendingGlines v.time).pendingGlines.find? (fun p => p.isFor v.mask) = none ∧
      s.majorityGline cfg v = ((s.expirePendingGlines v.time).setPending
        (newPending v (scacheAdd s.scache v.oper.server).1 ::
          (s.expirePendingGlines v.time).pendingGlines)
        (scacheAdd s.scache v.oper.server).2, none)) := by
  have hscache : (s.expirePendingGlines v.time).scache = s.scache := rfl
  unfold State.majorityGline
  dsimp only
  rw [hscache]
  split
  · exact Or.inl rfl
  · split
    · rename_i p hp
      by_cases hfirst : p.votedFirst v.oper = true
      · rw [if_pos hfirst]
        exact Or.inl rfl
      rw [if_neg hfirst]
      rw [Bool.not_eq_true] at hfirst
      by_cases huser : p.operUser2 = []
      · rw [if_neg fun h => h huser]
        exact Or.inr (Or.inr (Or.inl ⟨p, hp, hfirst, huser, rfl⟩))
      rw [if_pos huser]
      by_cases hsecond : p.votedSecond v.oper = true
      · rw [if_pos hsecond]
        exact Or.inl rfl
      rw [if_neg hsecond]
      rw [Bool.not_eq_true] at hsecond
      exact Or.inr (Or.inl ⟨p, hp, hfirst, huser, hsecond, rfl⟩)
    · rename_i hp
      exact Or.inr (Or.inr (Or.inr ⟨hp, rfl⟩))

/-- A record is backed by the votes that it holds. -/
def Backed (history : List Vote) (p : Pending) : Prop :=
  ∃ v₁, p.First v₁ ∧
    (p.operUser2 = [] ∧ p.lastGlineTime = v₁.time ∧ v₁ ∈ history ∨
      ∃ v₂, p.Second v₂ ∧ [v₂, v₁].Sublist history ∧ SameMask v₁.mask v₂.mask ∧
        DistinctVoters v₁.oper v₂.oper ∧ v₂.time < v₁.time + glinePendingExpire)

/-- What every run keeps. -/
structure State.Inv (s : State) : Prop where
  backed : ∀ p ∈ s.pendingGlines, Backed s.history p
  scache : ∀ n ∈ s.scache, NoNul n
  glines : ∀ g ∈ s.glines, NoNul g.user ∧ NoNul g.host

theorem State.inv_start : State.start.Inv where
  backed := by
    intro p hp
    cases hp
  scache := by
    intro n hn
    cases hn
  glines := by
    intro g hg
    cases hg

theorem Backed.cons {history : List Vote} {p : Pending} (h : Backed history p) (v : Vote) :
    Backed (v :: history) p := by
  obtain ⟨v₁, hfirst, ⟨huser, htime, hmem⟩ | ⟨v₂, hsecond, hsub, hrest⟩⟩ := h
  · exact ⟨v₁, hfirst, Or.inl ⟨huser, htime, List.mem_cons_of_mem v hmem⟩⟩
  · exact ⟨v₁, hfirst, Or.inr ⟨v₂, hsecond, hsub.cons v, hrest⟩⟩

theorem Backed.noNul {history : List Vote} {p : Pending} (h : Backed history p) :
    NoNul p.user ∧ NoNul p.host := by
  obtain ⟨v₁, hfirst, -⟩ := h
  rw [hfirst.maskUser, hfirst.maskHost]
  exact ⟨v₁.mask.user_noNul, v₁.mask.host_noNul⟩

theorem mem_expirePendingGlines {s : State} {now : Int} {p : Pending}
    (h : p ∈ (s.expirePendingGlines now).pendingGlines) :
    p ∈ s.pendingGlines ∧ now < p.lastGlineTime + glinePendingExpire := by
  obtain ⟨hp, hkeep⟩ := List.mem_filter.mp h
  rw [Bool.not_eq_true', Bool.or_eq_false_iff, decide_eq_false_iff_not] at hkeep
  exact ⟨hp, Int.not_le.mp hkeep.1⟩

theorem State.Inv.expire {s : State} (h : s.Inv) (now : Int) : (s.expirePendingGlines now).Inv :=
  ⟨fun p hp => h.backed p (mem_expirePendingGlines hp).1, h.scache, h.glines⟩

/-- A vote that calls `set_local_gline` is the third one. -/
theorem State.Inv.majority {s : State} (h : s.Inv) {v : Vote}
    (hcall : (s.majorityGline cfg v).2.isSome = true) :
    ∃ v₁ v₂, [v₂, v₁].Sublist s.history ∧ Majority v₁ v₂ v := by
  obtain hnone | ⟨p, hp, hfirst, huser, hsecond, -⟩ | ⟨p, -, -, -, hnone⟩ | ⟨-, hnone⟩ :=
    majorityGline_cases cfg s v
  · rw [hnone] at hcall
    cases hcall
  · have hfor := List.find?_some hp
    obtain ⟨hmem, htime⟩ := mem_expirePendingGlines (List.mem_of_find?_eq_some hp)
    obtain ⟨v₁, hone, ⟨hnil, -⟩ | ⟨v₂, htwo, hsub, hmask, hvoters, htimed⟩⟩ := h.backed p hmem
    · exact absurd hnil huser
    · refine ⟨v₁, v₂, hsub, hmask, (hone.isFor v.mask).mp hfor, hvoters, ?_, ?_, htimed, ?_⟩
      · exact (hone.voted_iff v.oper).mp hfirst
      · exact (htwo.voted_iff v.oper).mp hsecond
      · rw [← htwo.time]
        exact htime
  · rw [hnone] at hcall
    cases hcall
  · rw [hnone] at hcall
    cases hcall

/-- A vote keeps the invariant. -/
theorem State.Inv.vote {s : State} (h : s.Inv) (v : Vote) : (s.apply cfg (.vote v)).Inv := by
  obtain ⟨hserver, hnoNul, hscache⟩ := scacheAdd_spec h.scache v.oper.server_noNul
  have hexpired := h.expire v.time
  show ((s.majorityGline cfg v).1.record v).Inv
  obtain heq | ⟨p, hp, -, -, -, heq⟩ | ⟨p, hp, hfirst, huser, heq⟩ | ⟨hp, heq⟩ :=
    majorityGline_cases cfg s v
  · rw [heq]
    exact ⟨fun p hp => (hexpired.backed p hp).cons v, hexpired.scache, hexpired.glines⟩
  · rw [heq]
    refine ⟨fun q hq => ?_, hexpired.scache, fun g hg => ?_⟩
    · exact (hexpired.backed q (mem_expirePendingGlines hq).1).cons v
    · obtain hg | hg := List.mem_append.mp hg
      · exact h.glines g hg
      · rw [List.mem_singleton.mp hg]
        exact ⟨v.mask.user_noNul, v.mask.host_noNul⟩
  · rw [heq]
    refine ⟨fun q hq => ?_, hscache, hexpired.glines⟩
    obtain hq | ⟨r, hr, rfl⟩ := mem_updateFirst hq
    · exact (hexpired.backed q hq).cons v
    · rw [hp] at hr
      obtain rfl := Option.some.inj hr
      have hmem := mem_expirePendingGlines (List.mem_of_find?_eq_some hp)
      obtain ⟨v₁, hone, ⟨-, htime, hin⟩ | ⟨v₂, htwo, -⟩⟩ := h.backed p hmem.1
      · refine ⟨v₁, hone.second _, Or.inr ⟨v, second_second v hserver hnoNul p, ?_, ?_, ?_, ?_⟩⟩
        · exact (List.singleton_sublist.mpr hin).cons_cons v
        · have hfor := List.find?_some hp
          exact (hone.isFor v.mask).mp hfor
        · exact (hone.voted_iff v.oper).mp hfirst
        · rw [← htime]
          exact hmem.2
      · rw [htwo.user] at huser
        exact absurd huser v₂.oper.username_ne
  · rw [heq]
    refine ⟨fun q hq => ?_, hscache, hexpired.glines⟩
    obtain rfl | hq := List.mem_cons.mp hq
    · exact ⟨v, first_newPending v hserver hnoNul, Or.inl ⟨rfl, rfl, List.mem_cons_self⟩⟩
    · exact (hexpired.backed q hq).cons v

theorem State.Inv.apply {s : State} (h : s.Inv) (e : Event) : (s.apply cfg e).Inv := by
  cases e with
  | vote v => exact h.vote v
  | expirePendingGlines now => exact h.expire now
  | expireGlines now =>
    exact ⟨h.backed, h.scache, fun g hg => h.glines g (List.mem_filter.mp hg).1⟩
  | ungline user host now =>
    exact ⟨h.backed, h.scache, fun g hg => h.glines g (List.mem_of_mem_eraseP hg)⟩

theorem State.Inv.step {s s' : State} {e : Event} (h : s.Inv) (hs : s.step cfg e = some s') :
    s'.Inv ∧ s.now ≤ e.time ∧ s'.now = e.time := by
  unfold State.step at hs
  split at hs
  · cases hs
  · rename_i htime
    obtain rfl := Option.some.inj hs
    have happly : (s.apply cfg e).Inv := h.apply e
    exact ⟨⟨happly.backed, happly.scache, happly.glines⟩, Int.not_lt.mp htime, rfl⟩

-- ============================================================================
-- Following a record
-- ============================================================================

/-- There is one record for a mask, and the mask is not among the G-lines. -/
structure Followed (s : State) (mask : Mask) (p : Pending) : Prop where
  record : s.pendingGlines.filter (fun q => q.isFor mask) = [p]
  user : p.user = mask.user
  host : p.host = mask.host
  free : ∀ g ∈ s.glines, forMask mask g.user g.host = false

theorem findIsGlined_eq_none {s : State} {mask : Mask} :
    s.findIsGlined mask.host mask.user = none ↔
      ∀ g ∈ s.glines, forMask mask g.user g.host = false := by
  unfold State.findIsGlined
  rw [List.find?_eq_none]
  refine forall₂_congr fun g _ => ?_
  rw [Bool.eq_false_iff]
  rfl

theorem Followed.expire {s : State} {mask : Mask} {p : Pending} (h : Followed s mask p) {now : Int}
    (hnow : now < p.lastGlineTime + glinePendingExpire) :
    Followed (s.expirePendingGlines now) mask p := by
  refine ⟨?_, h.user, h.host, h.free⟩
  have hkeep : (!(decide (p.lastGlineTime + glinePendingExpire ≤ now) ||
      (s.findIsGlined p.host p.user).isSome)) = true := by
    rw [h.user, h.host, findIsGlined_eq_none.mpr h.free, decide_eq_false (by omega)]
    rfl
  unfold State.expirePendingGlines
  dsimp only
  rw [List.filter_filter, List.filter_congr fun q _ => Bool.and_comm _ _, ← List.filter_filter,
    h.record, List.filter_cons, if_pos hkeep]
  rfl

/-- A vote for another mask. -/
theorem Followed.vote_other {s : State} {mask : Mask} {p : Pending} (h : Followed s mask p)
    (hinv : s.Inv) {v : Vote} (hother : ¬ SameMask mask v.mask)
    (hnow : v.time < p.lastGlineTime + glinePendingExpire) :
    Followed (s.majorityGline cfg v).1 mask p := by
  have hexp := h.expire hnow
  have hback := (hinv.expire v.time).backed
  have hdisjoint : ∀ q ∈ (s.expirePendingGlines v.time).pendingGlines,
      q.isFor v.mask = true → q.isFor mask = false := fun q hq hfor =>
    forMask_disjoint hother (hback q hq).noNul.1 (hback q hq).noNul.2 hfor
  obtain heq | ⟨r, -, -, -, -, heq⟩ | ⟨r, -, -, -, heq⟩ | ⟨-, heq⟩ := majorityGline_cases cfg s v
  · rw [heq]
    exact hexp
  · rw [heq]
    refine Followed.expire (s := (s.expirePendingGlines v.time).setLocalGline cfg v.mask r.reason1
      v.time) ⟨hexp.record, hexp.user, hexp.host, fun g hg => ?_⟩ hnow
    obtain hg | hg := List.mem_append.mp hg
    · exact h.free g hg
    · rw [List.mem_singleton.mp hg]
      refine forMask_disjoint hother v.mask.user_noNul v.mask.host_noNul ?_
      exact forMask_iff.mpr ⟨irccmp_self _, irccmp_self _⟩
  · rw [heq]
    refine ⟨?_, h.user, h.host, h.free⟩
    rw [← hexp.record]
    exact filter_updateFirst_of_disjoint
      (f := Pending.second v (scacheAdd s.scache v.oper.server).1) (fun _ => rfl) hdisjoint
  · rw [heq]
    refine ⟨?_, h.user, h.host, h.free⟩
    have hnew : ¬ (newPending v (scacheAdd s.scache v.oper.server).1).isFor mask = true := by
      obtain ⟨hserver, hnoNul, -⟩ := scacheAdd_spec hinv.scache v.oper.server_noNul
      intro hfor
      exact hother (((first_newPending v hserver hnoNul).isFor mask).mp hfor).symm
    rw [← hexp.record]
    exact List.filter_cons_of_neg hnew

/-- An event that is no vote for the mask leaves its record, until it expires. -/
theorem Followed.step {s s' : State} {mask : Mask} {p : Pending} (h : Followed s mask p)
    (hinv : s.Inv) {e : Event} (hother : ¬ e.votesFor mask) (hs : s.step cfg e = some s')
    (hnow : e.time < p.lastGlineTime + glinePendingExpire) : Followed s' mask p := by
  unfold State.step at hs
  split at hs
  · cases hs
  obtain rfl := Option.some.inj hs
  cases e with
  | vote v =>
    have hvote : Followed (s.majorityGline cfg v).1 mask p := h.vote_other hinv hother hnow
    exact ⟨hvote.record, h.user, h.host, hvote.free⟩
  | expirePendingGlines now =>
    have hexp : Followed (s.expirePendingGlines now) mask p := h.expire hnow
    exact ⟨hexp.record, h.user, h.host, hexp.free⟩
  | expireGlines now =>
    exact ⟨h.record, h.user, h.host, fun g hg => h.free g (List.mem_filter.mp hg).1⟩
  | ungline user host now =>
    exact ⟨h.record, h.user, h.host, fun g hg => h.free g (List.mem_of_mem_eraseP hg)⟩

/-- Time does not go back in a run. -/
theorem now_le_of_run (es : List Event) : ∀ {s s' : State}, s.Inv →
    es.foldlM (State.step cfg) s = some s' → s'.Inv ∧ s.now ≤ s'.now := by
  induction es with
  | nil =>
    intro s s' hinv hs
    obtain rfl := Option.some.inj hs
    exact ⟨hinv, Int.le_refl _⟩
  | cons e es ih =>
    intro s s' hinv hs
    rw [List.foldlM_cons] at hs
    obtain ⟨t, ht, hs⟩ := Option.bind_eq_some_iff.mp hs
    obtain ⟨hinv', hle, hnow⟩ := hinv.step ht
    obtain ⟨hinv'', hle'⟩ := ih hinv' hs
    exact ⟨hinv'', by omega⟩

/-- Events that are no votes for the mask leave its record, until it expires. -/
theorem Followed.run {mask : Mask} {p : Pending} (es : List Event) : ∀ {s s' : State},
    Followed s mask p → s.Inv → (∀ e ∈ es, ¬ e.votesFor mask) →
    es.foldlM (State.step cfg) s = some s' → s'.now < p.lastGlineTime + glinePendingExpire →
    Followed s' mask p := by
  induction es with
  | nil =>
    intro s s' h _ _ hs _
    obtain rfl := Option.some.inj hs
    exact h
  | cons e es ih =>
    intro s s' h hinv hother hs hnow
    obtain ⟨he, hother⟩ := List.forall_mem_cons.mp hother
    rw [List.foldlM_cons] at hs
    obtain ⟨t, ht, hs⟩ := Option.bind_eq_some_iff.mp hs
    obtain ⟨hinv', -, htime⟩ := hinv.step ht
    have hle := (now_le_of_run es hinv' hs).2
    exact ih (h.step hinv he ht (by omega)) hinv' hother hs hnow

-- ============================================================================
-- Three votes
-- ============================================================================

/-- A vote finds the record for its mask, and no G-line. -/
theorem Followed.found {s : State} {mask mask' : Mask} {p : Pending} (h : Followed s mask p)
    (hinv : s.Inv) (hmask : SameMask mask mask') :
    s.pendingGlines.filter (fun q => q.isFor mask') = [p] ∧
      s.findIsGlined mask'.host mask'.user = none := by
  constructor
  · rw [← h.record]
    exact List.filter_congr fun q hq =>
      forMask_congr hmask (hinv.backed q hq).noNul.1 (hinv.backed q hq).noNul.2
  · rw [findIsGlined_eq_none]
    intro g hg
    rw [forMask_congr hmask (hinv.glines g hg).1 (hinv.glines g hg).2]
    exact h.free g hg

/-- The first vote for a mask. -/
theorem majorityGline_first (cfg : Config) {s : State} {v : Vote} (hinv : s.Inv)
    (hnone : ∀ p ∈ s.pendingGlines, p.isFor v.mask = false)
    (hfree : s.findIsGlined v.mask.host v.mask.user = none) :
    ∃ p, p.First v ∧ p.operUser2 = [] ∧ p.lastGlineTime = v.time ∧
      Followed (s.majorityGline cfg v).1 v.mask p := by
  obtain ⟨hserver, hnoNul, -⟩ := scacheAdd_spec hinv.scache v.oper.server_noNul
  have hfirst := first_newPending v hserver hnoNul
  have hnone' : ∀ p ∈ (s.expirePendingGlines v.time).pendingGlines, p.isFor v.mask = false :=
    fun p hp => hnone p (mem_expirePendingGlines hp).1
  have hfind : (s.expirePendingGlines v.time).pendingGlines.find? (fun p => p.isFor v.mask) = none := by
    rw [List.find?_eq_none]
    intro p hp
    rw [hnone' p hp]
    exact Bool.false_ne_true
  have hfree' : (s.expirePendingGlines v.time).findIsGlined v.mask.host v.mask.user = none := hfree
  refine ⟨_, hfirst, rfl, rfl, ?_⟩
  unfold State.majorityGline
  dsimp only
  rw [hfree', Option.isSome_none, if_neg Bool.false_ne_true, hfind]
  refine ⟨?_, hfirst.maskUser, hfirst.maskHost, findIsGlined_eq_none.mp hfree⟩
  have hfor : (newPending v (scacheAdd s.scache v.oper.server).1).isFor v.mask = true :=
    (hfirst.isFor v.mask).mpr ⟨irccmp_self _, irccmp_self _⟩
  have hrest : (s.expirePendingGlines v.time).pendingGlines.filter (fun p => p.isFor v.mask) = [] := by
    rw [List.filter_eq_nil_iff]
    intro p hp
    rw [hnone' p hp]
    exact Bool.false_ne_true
  show List.filter (fun p => p.isFor v.mask)
    (newPending v (scacheAdd s.scache v.oper.server).1 ::
      (s.expirePendingGlines v.time).pendingGlines) = _
  rw [List.filter_cons, if_pos hfor, hrest]

/-- The second vote for a mask. -/
theorem majorityGline_second (cfg : Config) {s : State} {mask : Mask} {p : Pending} {v : Vote}
    (h : Followed s mask p) (hinv : s.Inv) (hmask : SameMask mask v.mask)
    (hnow : v.time < p.lastGlineTime + glinePendingExpire) (hfirst : p.votedFirst v.oper = false)
    (huser : p.operUser2 = []) :
    ∃ server, irccmp server v.oper.server = 0 ∧ NoNul server ∧
      Followed (s.majorityGline cfg v).1 mask (p.second v server) := by
  obtain ⟨hserver, hnoNul, -⟩ := scacheAdd_spec hinv.scache v.oper.server_noNul
  have hexp := h.expire hnow
  have hinv' := hinv.expire v.time
  obtain ⟨hfilter, hfree⟩ := hexp.found hinv' hmask
  refine ⟨_, hserver, hnoNul, ?_⟩
  unfold State.majorityGline
  dsimp only
  rw [hfree, Option.isSome_none, if_neg Bool.false_ne_true, find?_of_filter hfilter]
  dsimp only
  rw [hfirst, if_neg Bool.false_ne_true, if_neg fun h => h huser]
  refine ⟨?_, h.user, h.host, h.free⟩
  show List.filter (fun q => q.isFor mask) (updateFirst (fun q => q.isFor v.mask)
    (Pending.second v (scacheAdd s.scache v.oper.server).1)
    (s.expirePendingGlines v.time).pendingGlines) = _
  have hsame : ∀ q ∈ (s.expirePendingGlines v.time).pendingGlines, q.isFor v.mask = q.isFor mask :=
    fun q hq => forMask_congr hmask (hinv'.backed q hq).noNul.1 (hinv'.backed q hq).noNul.2
  rw [updateFirst_congr _ hsame]
  exact filter_updateFirst_self (f := Pending.second v (scacheAdd s.scache v.oper.server).1)
    (fun _ => rfl) hexp.record

/-- The third vote for a mask calls `set_local_gline` with the first reason. -/
theorem majorityGline_third (cfg : Config) {s : State} {mask : Mask} {p : Pending} {v : Vote}
    (h : Followed s mask p) (hinv : s.Inv) (hmask : SameMask mask v.mask)
    (hnow : v.time < p.lastGlineTime + glinePendingExpire) (hfirst : p.votedFirst v.oper = false)
    (huser : p.operUser2 ≠ []) (hsecond : p.votedSecond v.oper = false) :
    (s.majorityGline cfg v).2 = some p.reason1 := by
  obtain ⟨hfilter, hfree⟩ := (h.expire hnow).found (hinv.expire v.time) hmask
  unfold State.majorityGline
  dsimp only
  rw [hfree, Option.isSome_none, if_neg Bool.false_ne_true, find?_of_filter hfilter]
  dsimp only
  rw [hfirst, if_neg Bool.false_ne_true, if_pos huser, hsecond, if_neg Bool.false_ne_true]

theorem step_vote {s s' : State} {v : Vote} (hs : s.step cfg (.vote v) = some s') :
    s'.pendingGlines = (s.majorityGline cfg v).1.pendingGlines ∧
      s'.glines = (s.majorityGline cfg v).1.glines := by
  unfold State.step at hs
  split at hs
  · cases hs
  · obtain rfl := Option.some.inj hs
    exact ⟨rfl, rfl⟩

theorem Followed.of_eq {s s' : State} {mask : Mask} {p : Pending} (h : Followed s mask p)
    (hpending : s'.pendingGlines = s.pendingGlines) (hglines : s'.glines = s.glines) :
    Followed s' mask p := by
  refine ⟨?_, h.user, h.host, ?_⟩
  · rw [hpending]
    exact h.record
  · rw [hglines]
    exact h.free

/-- Three votes that count are enough, whatever else happens in between. -/
theorem State.Inv.three_votes {s s₃ : State} (hinv : s.Inv) {v₁ v₂ v₃ : Vote}
    (hmajority : Majority v₁ v₂ v₃) (hnone : ∀ p ∈ s.pendingGlines, p.isFor v₁.mask = false)
    (hfree : s.findIsGlined v₁.mask.host v₁.mask.user = none) {es₁ es₂ : List Event}
    (hother₁ : ∀ e ∈ es₁, ¬ e.votesFor v₁.mask) (hother₂ : ∀ e ∈ es₂, ¬ e.votesFor v₁.mask)
    (hrun : (.vote v₁ :: es₁ ++ .vote v₂ :: es₂).foldlM (State.step cfg) s = some s₃)
    (hnow : s₃.now ≤ v₃.time) : (s₃.majorityGline cfg v₃).2 = some v₁.reason := by
  rw [List.cons_append, List.foldlM_cons] at hrun
  obtain ⟨t₁, ht₁, hrun⟩ := Option.bind_eq_some_iff.mp hrun
  rw [List.foldlM_append] at hrun
  obtain ⟨t₂, ht₂, hrun⟩ := Option.bind_eq_some_iff.mp hrun
  rw [List.foldlM_cons] at hrun
  obtain ⟨t₃, ht₃, hrun⟩ := Option.bind_eq_some_iff.mp hrun
  obtain ⟨hinv₁, -, -⟩ := hinv.step ht₁
  have hinv₂ := (now_le_of_run es₁ hinv₁ ht₂).1
  obtain ⟨hinv₃, htime₂, htime₃⟩ := hinv₂.step ht₃
  obtain ⟨hinv₄, htime₄⟩ := now_le_of_run es₂ hinv₃ hrun
  have htime₂ : t₂.now ≤ v₂.time := htime₂
  have htime₃ : t₃.now = v₂.time := htime₃
  have htimed₁ := hmajority.timed₁₂
  have htimed₂ := hmajority.timed₂₃
  -- the first vote
  obtain ⟨p, hone, huser, hlast, hfollow⟩ := majorityGline_first cfg hinv hnone hfree
  have hfollow₁ := hfollow.of_eq (step_vote ht₁).1 (step_vote ht₁).2
  have hfollow₂ := hfollow₁.run es₁ hinv₁ hother₁ ht₂ (by omega)
  -- the second one
  obtain ⟨server, hserver, hnoNul, hfollow₃⟩ := majorityGline_second cfg hfollow₂ hinv₂
    hmajority.mask₁₂ (by omega) ((hone.voted_iff _).mpr hmajority.voters₁₂) huser
  have htwo := second_second v₂ hserver hnoNul p
  have hlast₂ := htwo.time
  have hfollow₃ := hfollow₃.of_eq (step_vote ht₃).1 (step_vote ht₃).2
  have hfollow₄ := hfollow₃.run es₂ hinv₃ hother₂ hrun (by omega)
  -- the third one
  have huser₂ : (p.second v₂ server).operUser2 ≠ [] := by
    rw [htwo.user]
    exact v₂.oper.username_ne
  rw [majorityGline_third cfg hfollow₄ hinv₄ hmajority.mask₁₃ (by omega)
    (((hone.second server).voted_iff _).mpr hmajority.voters₁₃) huser₂
    ((htwo.voted_iff _).mpr hmajority.voters₂₃)]
  exact congrArg some hone.reason

/-- Each call of `set_local_gline` in a run is the third of three votes that count;
    and when no vote is pending for a mask that is not among the G-lines, the third of
    the next three votes for it calls `set_local_gline` if these count. -/
theorem gline_iff_three_votes (cfg : Config) (s : State)
    (h : Reach (State.step cfg) anyStep State.start s) :
    (∀ v, s.now ≤ v.time → (s.majorityGline cfg v).2.isSome = true →
      ∃ v₁ v₂, [v₂, v₁].Sublist s.history ∧ Majority v₁ v₂ v) ∧
    (∀ (v₁ v₂ v₃ : Vote) (es₁ es₂ : List Event) (s₃ : State), Majority v₁ v₂ v₃ →
      (∀ p ∈ s.pendingGlines, p.isFor v₁.mask = false) →
      s.findIsGlined v₁.mask.host v₁.mask.user = none →
      (∀ e ∈ es₁, ¬ e.votesFor v₁.mask) → (∀ e ∈ es₂, ¬ e.votesFor v₁.mask) →
      (.vote v₁ :: es₁ ++ .vote v₂ :: es₂).foldlM (State.step cfg) s = some s₃ →
      s₃.now ≤ v₃.time → (s₃.majorityGline cfg v₃).2.isSome = true) := by
  have hinv : s.Inv := h.invariant (P := State.Inv) State.inv_start
    fun _ _ _ hinv _ hs => (hinv.step hs).1
  refine ⟨fun v _ hcall => hinv.majority hcall, ?_⟩
  intro v₁ v₂ v₃ es₁ es₂ s₃ hmajority hnone hfree hother₁ hother₂ hrun hnow
  rw [hinv.three_votes hmajority hnone hfree hother₁ hother₂ hrun hnow]
  rfl

/-- An operator whose names are all one letter. -/
def letterOper (a : UInt8) (h : a ≠ 0) : Oper where
  name := [a]
  username := [a]
  host := [a]
  server := [a]
  username_fits := Nat.le_add_left 1 9
  host_fits := Nat.le_add_left 1 62
  username_ne := List.cons_ne_nil a []
  server_ne := List.cons_ne_nil a []
  username_noNul := fun hmem => h (List.mem_singleton.mp hmem).symm
  host_noNul := fun hmem => h (List.mem_singleton.mp hmem).symm
  server_noNul := fun hmem => h (List.mem_singleton.mp hmem).symm

/-- The mask `*@x.y`. -/
def someMask : Mask := ⟨[42], [120, 46, 121], by decide, by decide, by decide, by decide⟩

/-- A vote for that mask, with the reason `r`. -/
def letterVote (a : UInt8) (h : a ≠ 0) (time : Int) : Vote := ⟨letterOper a h, someMask, [114], time⟩

/-- Votes of three operators at 10, 600 and 1000, with a timer in between. -/
theorem gline_of_three_letters :
    ((([.vote (letterVote 97 (by decide) 10), .expirePendingGlines 300,
      .vote (letterVote 98 (by decide) 600)].foldl
        (Reach.perform (State.step ⟨3600, fun _ => none⟩)) State.start).majorityGline
          ⟨3600, fun _ => none⟩ (letterVote 99 (by decide) 1000)).2.isSome) = true := by
  refine (gline_iff_three_votes ⟨3600, fun _ => none⟩ State.start Reach.init).2
    (letterVote 97 (by decide) 10) (letterVote 98 (by decide) 600) (letterVote 99 (by decide) 1000)
    [.expirePendingGlines 300] [] _ ⟨?_, ?_, ?_, ?_, ?_, ?_, ?_⟩ ?_ ?_ ?_ ?_ ?_ ?_
  · exact ⟨by decide, by decide⟩
  · exact ⟨by decide, by decide⟩
  · exact ⟨by decide, by decide⟩
  · exact ⟨by decide, by decide⟩
  · exact ⟨by decide, by decide⟩
  · decide
  · decide
  · intro p hp
    cases hp
  · rfl
  · intro e he
    rw [List.mem_singleton.mp he]
    exact id
  · intro e he
    cases he
  · rfl
  · decide

end Bluebox.Gline
