/-
  Bluebox.Message.Flood

  The throttle for messages to one target (`flood_attack_client` and `flood_attack_channel`
  in `modules/core/m_message.c`): a counter that drains one message a second, but only when
  two seconds have passed, and then all at once.

  The counter is an `int`.  With a limit at its end the penalty of two takes it over.
-/
import Bluebox.Lib.CString
import Bluebox.Lib.Meter

namespace Bluebox.Message

open Bluebox.Lib

-- ============================================================================
-- The throttle
-- ============================================================================

/-- The flood control of a client or a channel. -/
structure Flood where
  firstReceivedMessageTime : Int
  receivedNumberOfPrivmsgs : Int
  floodNoticed : Bool
deriving DecidableEq, Repr

/-- A client or a channel that is new. -/
def Flood.start : Flood := ⟨0, 0, false⟩

/-- The source of a message: `IsClient` and `MyConnect`. -/
structure Source where
  isClient : Bool
  myConnect : Bool
deriving DecidableEq, Repr

/-- `MyClient`. -/
def Source.myClient (s : Source) : Bool := s.myConnect && s.isClient

/-- What is returned, and who is told. -/
structure Verdict where
  throttled : Bool
  possibleFlooder : Bool
  noticeSource : Bool
deriving DecidableEq, Repr

/-- The drain. -/
def Flood.drain (f : Flood) (now : Int) : Flood :=
  if f.firstReceivedMessageTime + 1 < now then
    let delta := toInt32 (now - f.firstReceivedMessageTime)
    let n := toInt32 (f.receivedNumberOfPrivmsgs - delta)
    if n ≤ 0 then ⟨now, 0, false⟩ else ⟨now, n, f.floodNoticed⟩
  else f

/-- What both functions do where they apply. -/
def Flood.attack (floodcount : Int) (notice : Bool) (source : Source) (f : Flood) (now : Int) : Flood × Verdict :=
  let f := f.drain now
  if f.receivedNumberOfPrivmsgs ≥ floodcount ∨ f.floodNoticed = true then
    (if f.floodNoticed then f
      else { f with floodNoticed := true, receivedNumberOfPrivmsgs := toInt32 (f.receivedNumberOfPrivmsgs + 2) },
      ⟨true, !f.floodNoticed, source.myClient && !notice⟩)
  else
    ({ f with receivedNumberOfPrivmsgs := toInt32 (f.receivedNumberOfPrivmsgs + 1) }, ⟨false, false, false⟩)

/-- `flood_attack_client`; `myConnect` is that of the target. -/
def floodAttackClient (floodcount : Int) (myConnect notice : Bool) (source : Source) (f : Flood) (now : Int) :
    Flood × Verdict :=
  if floodcount ≠ 0 ∧ myConnect = true ∧ source.isClient = true then f.attack floodcount notice source now
  else (f, ⟨false, false, false⟩)

/-- `flood_attack_channel`. -/
def floodAttackChannel (floodcount : Int) (notice : Bool) (source : Source) (f : Flood) (now : Int) :
    Flood × Verdict :=
  if floodcount ≠ 0 ∧ source.myClient = true then f.attack floodcount notice source now
  else (f, ⟨false, false, false⟩)

-- ============================================================================
-- Runs
-- ============================================================================

/-- A call, for one target. -/
structure Call where
  notice : Bool
  source : Source
  now : Int
deriving DecidableEq, Repr

/-- A call for a local client; it passes where 0 is returned. -/
def clientStep (floodcount : Int) (f : Flood) (c : Call) : Flood × Bool :=
  let r := floodAttackClient floodcount true c.notice c.source f c.now
  (r.1, !r.2.throttled)

/-- A call for a channel. -/
def channelStep (floodcount : Int) (f : Flood) (c : Call) : Flood × Bool :=
  let r := floodAttackChannel floodcount c.notice c.source f c.now
  (r.1, !r.2.throttled)

/-- Calls by local clients, before the end of a 32-bit time. -/
def Call.Local (c : Call) : Prop := c.source.myClient = true ∧ c.now < 2 ^ 31

/-- No interval lets more calls pass than the limit, one for each second and one more, and
    the counter is never negative. -/
def Throttles (floodcount : Int) (step : Flood → Call → Flood × Bool) : Prop :=
  ∀ calls : List Call, (∀ c ∈ calls, c.Local) → (calls.map Call.now).Pairwise (· ≤ ·) →
    (∀ t₀ t₁, t₀ ≤ t₁ → (passedIn Call.now step t₀ t₁ Flood.start calls : Int) ≤ floodcount + (t₁ - t₀) + 1) ∧
      0 ≤ (stateAfter step Flood.start calls).receivedNumberOfPrivmsgs

-- ============================================================================
-- The potential
-- ============================================================================

/-- What holds of the counter: only the penalty takes it past the limit. -/
structure Flood.Ok (floodcount : Int) (f : Flood) : Prop where
  first : 0 ≤ f.firstReceivedMessageTime
  nonneg : 0 ≤ f.receivedNumberOfPrivmsgs
  quiet : f.floodNoticed = false → f.receivedNumberOfPrivmsgs ≤ floodcount
  le : f.receivedNumberOfPrivmsgs ≤ floodcount + 2

/-- How many messages the throttle would let pass: what the counter leaves, after the drain
    that comes next, and a second that has not been drained yet. -/
def Flood.credit (floodcount : Int) (f : Flood) (now : Int) : Int :=
  if f.firstReceivedMessageTime + 1 < now then
    floodcount - min (max (f.receivedNumberOfPrivmsgs - (now - f.firstReceivedMessageTime)) 0) floodcount
  else floodcount - min f.receivedNumberOfPrivmsgs floodcount + max (now - f.firstReceivedMessageTime) 0

variable {floodcount now now' : Int} {f : Flood} {notice : Bool} {source : Source}

theorem Flood.start_ok (h : 0 < floodcount) : Flood.start.Ok floodcount :=
  ⟨le_refl _, le_refl _, fun _ => h.le, by show (0 : Int) ≤ floodcount + 2; omega⟩

/-- The drain, without the conversions. -/
theorem Flood.drain_eq (hok : f.Ok floodcount) (hint : floodcount + 2 < 2 ^ 31) (hnow : now < 2 ^ 31) :
    f.drain now =
      if f.firstReceivedMessageTime + 1 < now then
        if f.receivedNumberOfPrivmsgs - (now - f.firstReceivedMessageTime) ≤ 0 then ⟨now, 0, false⟩
        else ⟨now, f.receivedNumberOfPrivmsgs - (now - f.firstReceivedMessageTime), f.floodNoticed⟩
      else f := by
  unfold Flood.drain
  by_cases hlong : f.firstReceivedMessageTime + 1 < now
  · have hfirst := hok.first
    have hnonneg := hok.nonneg
    have hle := hok.le
    have hdelta : toInt32 (now - f.firstReceivedMessageTime) = now - f.firstReceivedMessageTime :=
      toInt32_of_isInt32 ⟨by omega, by omega⟩
    have hn : toInt32 (f.receivedNumberOfPrivmsgs - (now - f.firstReceivedMessageTime)) =
        f.receivedNumberOfPrivmsgs - (now - f.firstReceivedMessageTime) :=
      toInt32_of_isInt32 ⟨by omega, by omega⟩
    rw [if_pos hlong, if_pos hlong]
    dsimp only
    rw [hdelta, hn]
  · rw [if_neg hlong, if_neg hlong]

theorem Flood.ok_mk {t n : Int} {b : Bool} (ht : 0 ≤ t) (hn : 0 ≤ n) (hquiet : b = false → n ≤ floodcount)
    (hle : n ≤ floodcount + 2) : Flood.Ok floodcount ⟨t, n, b⟩ := ⟨ht, hn, hquiet, hle⟩

theorem Flood.credit_short (h : ¬ f.firstReceivedMessageTime + 1 < now) :
    f.credit floodcount now =
      floodcount - min f.receivedNumberOfPrivmsgs floodcount + max (now - f.firstReceivedMessageTime) 0 :=
  if_neg h

theorem Flood.credit_mk {t n : Int} {b : Bool} (h : ¬ t + 1 < now) :
    Flood.credit floodcount ⟨t, n, b⟩ now = floodcount - min n floodcount + max (now - t) 0 := Flood.credit_short h

theorem Flood.credit_long (h : f.firstReceivedMessageTime + 1 < now) :
    f.credit floodcount now =
      floodcount - min (max (f.receivedNumberOfPrivmsgs - (now - f.firstReceivedMessageTime)) 0) floodcount :=
  if_pos h

/-- After the drain the potential is the same, and no two seconds are left. -/
theorem Flood.drain_ok (hpos : 0 < floodcount) (hok : f.Ok floodcount) (hint : floodcount + 2 < 2 ^ 31)
    (hnow : now < 2 ^ 31) :
    (f.drain now).Ok floodcount ∧ (f.drain now).credit floodcount now = f.credit floodcount now ∧
      ¬ (f.drain now).firstReceivedMessageTime + 1 < now := by
  rw [Flood.drain_eq hok hint hnow]
  by_cases hlong : f.firstReceivedMessageTime + 1 < now
  · obtain ⟨hfirst, hnonneg, hquiet, hle⟩ := hok
    have hshort : ¬ now + 1 < now := by omega
    rw [if_pos hlong, Flood.credit_long hlong]
    by_cases hzero : f.receivedNumberOfPrivmsgs - (now - f.firstReceivedMessageTime) ≤ 0
    · rw [if_pos hzero, Flood.credit_short hshort]
      refine ⟨Flood.ok_mk (by omega) (le_refl _) (fun _ => hpos.le) (by omega), ?_, hshort⟩
      dsimp only
      omega
    · rw [if_neg hzero, Flood.credit_short hshort]
      refine ⟨Flood.ok_mk (by omega) (by omega) (fun hq => ?_) (by omega), ?_, hshort⟩
      · have hq' := hquiet hq
        omega
      · dsimp only
        omega
  · rw [if_neg hlong]
    exact ⟨hok, rfl, hlong⟩

theorem Flood.drain_short (h : ¬ f.firstReceivedMessageTime + 1 < now) : f.drain now = f := if_neg h

theorem Flood.drain_early {n : Int} {b : Bool} : Flood.drain ⟨0, n, b⟩ 0 = ⟨0, n, b⟩ :=
  Flood.drain_short (show ¬ (0 : Int) + 1 < 0 by decide)

theorem Flood.attack_pass (h : ¬ ((f.drain now).receivedNumberOfPrivmsgs ≥ floodcount ∨ (f.drain now).floodNoticed = true)) :
    f.attack floodcount notice source now =
      ({ f.drain now with receivedNumberOfPrivmsgs := toInt32 ((f.drain now).receivedNumberOfPrivmsgs + 1) },
        ⟨false, false, false⟩) := if_neg h

theorem Flood.attack_noticed (h : (f.drain now).floodNoticed = true) :
    f.attack floodcount notice source now = (f.drain now, ⟨true, false, source.myClient && !notice⟩) := by
  unfold Flood.attack
  dsimp only
  rw [if_pos (Or.inr h), if_pos h, h]
  rfl

theorem Flood.attack_full (h : (f.drain now).receivedNumberOfPrivmsgs ≥ floodcount)
    (hnoticed : (f.drain now).floodNoticed = false) :
    f.attack floodcount notice source now =
      (⟨(f.drain now).firstReceivedMessageTime, toInt32 ((f.drain now).receivedNumberOfPrivmsgs + 2), true⟩,
        ⟨true, true, source.myClient && !notice⟩) := by
  unfold Flood.attack
  dsimp only
  rw [if_pos (Or.inl h), hnoticed]
  rfl

/-- A call that passes takes one from the potential, one that does not takes nothing. -/
theorem Flood.attack_ok (hpos : 0 < floodcount) (hok : f.Ok floodcount) (hint : floodcount + 2 < 2 ^ 31)
    (hnow : now < 2 ^ 31) :
    (f.attack floodcount notice source now).1.Ok floodcount ∧
      (f.attack floodcount notice source now).1.credit floodcount now +
        (if !(f.attack floodcount notice source now).2.throttled then 1 else 0) ≤ f.credit floodcount now := by
  obtain ⟨hok', hcredit, hshort⟩ := Flood.drain_ok hpos hok hint hnow
  rw [← hcredit, Flood.credit_short hshort]
  obtain ⟨hfirst, hnonneg, hquiet, hle⟩ := hok'
  by_cases hfull : (f.drain now).receivedNumberOfPrivmsgs ≥ floodcount ∨ (f.drain now).floodNoticed = true
  · cases hnoticed : (f.drain now).floodNoticed with
    | true =>
      rw [Flood.attack_noticed hnoticed, Flood.credit_short hshort]
      refine ⟨⟨hfirst, hnonneg, hquiet, hle⟩, ?_⟩
      rw [if_neg (by exact Bool.false_ne_true)]
      omega
    | false =>
      -- the penalty
      rw [hnoticed] at hfull
      have hfull' := hfull.resolve_right Bool.false_ne_true
      have hle' := hquiet hnoticed
      have hpenalty : toInt32 ((f.drain now).receivedNumberOfPrivmsgs + 2) =
          (f.drain now).receivedNumberOfPrivmsgs + 2 := toInt32_of_isInt32 ⟨by omega, by omega⟩
      rw [Flood.attack_full hfull' hnoticed, hpenalty]
      refine ⟨Flood.ok_mk hfirst (by omega) (fun hq => by cases hq) (by omega), ?_⟩
      rw [Flood.credit_mk hshort, if_neg (by exact Bool.false_ne_true)]
      omega
  · have hone : toInt32 ((f.drain now).receivedNumberOfPrivmsgs + 1) = (f.drain now).receivedNumberOfPrivmsgs + 1 :=
      toInt32_of_isInt32 ⟨by omega, by omega⟩
    rw [Flood.attack_pass hfull, hone]
    refine ⟨Flood.ok_mk hfirst (by omega) (fun _ => by omega) (by omega), ?_⟩
    show Flood.credit floodcount ⟨_, _, _⟩ now + _ ≤ _
    rw [Flood.credit_mk hshort, if_pos (by rfl)]
    omega

theorem Flood.credit_bounds (hpos : 0 < floodcount) (hok : f.Ok floodcount) :
    0 ≤ f.credit floodcount now ∧ f.credit floodcount now ≤ floodcount + 1 := by
  have hnonneg := hok.nonneg
  by_cases hlong : f.firstReceivedMessageTime + 1 < now
  · rw [Flood.credit_long hlong]
    omega
  · rw [Flood.credit_short hlong]
    omega

theorem Flood.credit_grow (hok : f.Ok floodcount) (h : now ≤ now') :
    f.credit floodcount now' ≤ f.credit floodcount now + (now' - now) := by
  have hnonneg := hok.nonneg
  by_cases hlong : f.firstReceivedMessageTime + 1 < now
  · rw [Flood.credit_long hlong, Flood.credit_long (by omega)]
    omega
  · rw [Flood.credit_short hlong]
    by_cases hlong' : f.firstReceivedMessageTime + 1 < now'
    · rw [Flood.credit_long hlong']
      omega
    · rw [Flood.credit_short hlong']
      omega

/-- For calls by local clients both functions are the same. -/
theorem clientStep_eq (hpos : 0 < floodcount) {c : Call} (hc : c.Local) :
    clientStep floodcount f c =
      ((f.attack floodcount c.notice c.source c.now).1, !(f.attack floodcount c.notice c.source c.now).2.throttled) := by
  have hmy := hc.1
  unfold Source.myClient at hmy
  rw [Bool.and_eq_true] at hmy
  unfold clientStep floodAttackClient
  rw [if_pos ⟨hpos.ne', rfl, hmy.2⟩]

theorem channelStep_eq (hpos : 0 < floodcount) {c : Call} (hc : c.Local) :
    channelStep floodcount f c =
      ((f.attack floodcount c.notice c.source c.now).1, !(f.attack floodcount c.notice c.source c.now).2.throttled) := by
  unfold channelStep floodAttackChannel
  rw [if_pos ⟨hpos.ne', hc.1⟩]

/-- The throttle as a rate limit. -/
def throttle (hpos : 0 < floodcount) (hint : floodcount + 2 < 2 ^ 31) (step : Flood → Call → Flood × Bool)
    (hstep : ∀ {f c}, c.Local → step f c =
      ((f.attack floodcount c.notice c.source c.now).1, !(f.attack floodcount c.notice c.source c.now).2.throttled)) :
    Meter Flood Call where
  time := Call.now
  step := step
  Good := Call.Local
  Ok f _ := f.Ok floodcount
  credit := Flood.credit floodcount
  cost := 1
  bound := floodcount + 1
  ok_mono hok _ := hok
  ok_step hc hok := by
    rw [hstep hc]
    exact (Flood.attack_ok hpos hok hint hc.2).1
  credit_nonneg hok := (Flood.credit_bounds hpos hok).1
  credit_le hok := (Flood.credit_bounds hpos hok).2
  credit_grow := Flood.credit_grow
  credit_step hc hok := by
    rw [hstep hc]
    exact (Flood.attack_ok hpos hok hint hc.2).2

theorem throttles (hpos : 0 < floodcount) (hint : floodcount + 2 < 2 ^ 31) {step : Flood → Call → Flood × Bool}
    (hstep : ∀ {f c}, c.Local → step f c =
      ((f.attack floodcount c.notice c.source c.now).1, !(f.attack floodcount c.notice c.source c.now).2.throttled)) :
    Throttles floodcount step := by
  intro calls hlocal hsorted
  obtain ⟨t, htimed⟩ := exists_timedFrom hsorted
  have hok : (throttle hpos hint step hstep).Ok Flood.start t := Flood.start_ok hpos
  refine ⟨fun t₀ t₁ h => ?_, ?_⟩
  · have hwindow := Meter.window hok hlocal htimed h (show 0 ≤ floodcount + 1 by omega)
    have hwindow' : 1 * (passedIn Call.now step t₀ t₁ Flood.start calls : Int) ≤ floodcount + 1 + (t₁ - t₀) := hwindow
    omega
  · obtain ⟨t', hend⟩ := Meter.run_ok hok hlocal htimed
    exact Flood.Ok.nonneg hend

-- ============================================================================
-- The end of the counter
-- ============================================================================

/-- A local user. -/
def localUser : Source := ⟨true, true⟩

/-- A message at the time 0. -/
def early : Call := ⟨false, localUser, 0⟩

theorem early_local : early.Local := ⟨rfl, by decide⟩

/-- As long as the limit is not reached the counter counts. -/
theorem stateAfter_early {step : Flood → Call → Flood × Bool} (hint : floodcount < 2 ^ 31)
    (hstep : ∀ {f c}, c.Local → step f c =
      ((f.attack floodcount c.notice c.source c.now).1, !(f.attack floodcount c.notice c.source c.now).2.throttled))
    (n : Nat) (hn : (n : Int) ≤ floodcount) : stateAfter step Flood.start (List.replicate n early) = ⟨0, n, false⟩ := by
  induction n with
  | zero => rfl
  | succ n ih =>
    have hone : toInt32 ((n : Int) + 1) = n + 1 := toInt32_of_isInt32 ⟨by omega, by omega⟩
    have hdrain : Flood.drain ⟨0, n, false⟩ early.now = ⟨0, n, false⟩ := Flood.drain_early
    have hlast : stateAfter step Flood.start (List.replicate (n + 1) early) = (step ⟨0, n, false⟩ early).1 := by
      rw [List.replicate_succ', ← ih (by omega)]
      exact List.foldl_concat ..
    have hnot : ¬ ((Flood.drain ⟨0, n, false⟩ early.now).receivedNumberOfPrivmsgs ≥ floodcount ∨
        (Flood.drain ⟨0, n, false⟩ early.now).floodNoticed = true) := by
      rw [hdrain]
      rintro (h | h)
      · have h' : (n : Int) ≥ floodcount := h
        omega
      · cases h
    rw [hlast, hstep early_local, Flood.attack_pass hnot, hdrain, hone]
    rfl

/-- With a limit at the end of an `int` the penalty makes the counter negative. -/
theorem not_throttles (hpos : 0 < floodcount) (hint : floodcount < 2 ^ 31) (hend : 2 ^ 31 ≤ floodcount + 2)
    {step : Flood → Call → Flood × Bool}
    (hstep : ∀ {f c}, c.Local → step f c =
      ((f.attack floodcount c.notice c.source c.now).1, !(f.attack floodcount c.notice c.source c.now).2.throttled)) :
    ¬ Throttles floodcount step := by
  intro h
  have hnat : ((floodcount.toNat : Nat) : Int) = floodcount := Int.toNat_of_nonneg hpos.le
  have hrun := stateAfter_early hint hstep floodcount.toNat (by omega)
  have hcount := (h (List.replicate (floodcount.toNat + 1) early)
    (fun c hc => List.eq_of_mem_replicate hc ▸ early_local) (by
      rw [List.map_replicate]
      exact List.pairwise_replicate.mpr (Or.inr (le_refl _)))).2
  have hlast : stateAfter step Flood.start (List.replicate (floodcount.toNat + 1) early) =
      (step ⟨0, floodcount, false⟩ early).1 := by
    rw [hnat] at hrun
    rw [List.replicate_succ', ← hrun]
    exact List.foldl_concat ..
  have hdrain : Flood.drain ⟨0, floodcount, false⟩ early.now = ⟨0, floodcount, false⟩ := Flood.drain_early
  have hfull : (Flood.drain ⟨0, floodcount, false⟩ early.now).receivedNumberOfPrivmsgs ≥ floodcount := by
    rw [hdrain]
  have hquiet : (Flood.drain ⟨0, floodcount, false⟩ early.now).floodNoticed = false := by
    rw [hdrain]
  rw [hlast, hstep early_local, Flood.attack_full hfull hquiet, hdrain] at hcount
  have hneg : toInt32 (floodcount + 2) < 0 := by
    unfold toInt32
    rw [Int.bmod_def]
    split <;> omega
  exact absurd hcount (not_le.mpr hneg)

/-- Both throttles keep the rate, and a counter that is not negative, exactly for the limits
    that an `int` holds together with the penalty. -/
theorem throttles_iff (floodcount : Int) (hpos : 0 < floodcount) (hint : floodcount < 2 ^ 31) :
    Throttles floodcount (clientStep floodcount) ∧ Throttles floodcount (channelStep floodcount) ↔
      floodcount + 2 < 2 ^ 31 := by
  constructor
  · intro h
    by_contra hend
    exact not_throttles hpos hint (not_lt.mp hend) (fun hc => clientStep_eq hpos hc) h.1
  · intro hend
    exact ⟨throttles hpos hend fun hc => clientStep_eq hpos hc, throttles hpos hend fun hc => channelStep_eq hpos hc⟩

/-- The default limit. -/
theorem throttles_ten : (0 : Int) < 10 ∧ Throttles 10 (clientStep 10) ∧ Throttles 10 (channelStep 10) :=
  ⟨by decide, (throttles_iff 10 (by decide) (by decide)).mpr (by decide)⟩

theorem not_throttles_intMax : ¬ ∀ floodcount : Int, 0 < floodcount → floodcount < 2 ^ 31 →
    Throttles floodcount (clientStep floodcount) ∧ Throttles floodcount (channelStep floodcount) := by
  intro h
  have hmax := (h (2 ^ 31 - 1) (by decide) (by decide)).1
  exact not_throttles (by decide) (by decide) (by decide) (fun hc => clientStep_eq (by decide) hc) hmax

end Bluebox.Message
