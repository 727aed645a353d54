/-
  Bluebox.Event

  The timed events of libratbox (`libratbox/src/event.c`), on a back end without native
  timers: `rb_lib_loop` sleeps until `rb_event_next` and then calls `rb_event_run`.

  `event_time_min` is a cached minimum.  The functions that add events keep it low enough,
  and `rb_event_run` computes it anew, but `rb_set_back_events` and `rb_event_update` bring
  events forward without a look at it.

  While `rb_event_run` is at an event, the function of that event may call any of the others.
  So it is not one step here: `turn` is the head of its loop, `ret` the part of the body
  behind the call, and what the function does is the calls between them.  Memory that was
  freed has no contents: a step that reads it has no result.
-/
import Mathlib.Data.List.Nodup
import Bluebox.Lib.Reach

namespace Bluebox.Event

open Bluebox.Lib

-- ============================================================================
-- Data
-- ============================================================================

/-- The largest `time_t`. -/
def timeMax : Int := 9223372036854775807

/-- `struct ev_entry`: `func` and `arg` stand for the addresses. -/
structure EvEntry where
  func : Nat
  arg : Nat
  when : Int
  frequency : Int
deriving DecidableEq, Repr

/-- Where `rb_event_run` is: not running, at the head of its loop, or at a call of the
    function of the event at `ptr`.  `next` was read from the list before that. -/
inductive Running
  | idle
  | turn (ptr next : Option Nat)
  | handler (ptr : Nat) (next : Option Nat)
deriving DecidableEq, Repr

/-- The event list, head first, by the addresses of the events; those from `nextEv` on are
    not in use.  `currentTime` is what `rb_current_time` returns. -/
structure State where
  eventList : List (Nat × EvEntry)
  nextEv : Nat
  eventTimeMin : Int
  currentTime : Int
  running : Running
deriving DecidableEq, Repr

/-- Nothing is listed yet. -/
def State.start : State := ⟨[], 0, -1, 0, .idle⟩

/-- The addresses of the listed events. -/
def State.ids (s : State) : List Nat := s.eventList.map Prod.fst

/-- What is at an address, if it is in use. -/
def State.entry (s : State) (ev : Nat) : Option EvEntry :=
  (s.eventList.find? fun x => x.1 == ev).map Prod.snd

/-- Write to an event. -/
def State.modify (s : State) (ev : Nat) (f : EvEntry → EvEntry) : State :=
  { s with eventList := s.eventList.map fun x => if x.1 = ev then (x.1, f x.2) else x }

/-- The comparison that `rb_event_add` and `rb_event_run` make with every time they set. -/
def State.lower (s : State) (when : Int) : State :=
  if when < s.eventTimeMin ∨ s.eventTimeMin = -1 then { s with eventTimeMin := when } else s

-- ============================================================================
-- Calls
-- ============================================================================

/-- Put an event on the list. -/
def State.put (s : State) (ev : EvEntry) : State :=
  { s.lower ev.when with
    eventList := (s.nextEv, ev) :: s.eventList
    nextEv := s.nextEv + 1 }

/-- `rb_event_add`. -/
def rbEventAdd (s : State) (func arg : Nat) (when : Int) : State :=
  s.put ⟨func, arg, s.currentTime + when, when⟩

/-- `rb_event_addonce`. -/
def rbEventAddonce (s : State) (func arg : Nat) (when : Int) : State :=
  s.put ⟨func, arg, s.currentTime + when, 0⟩

/-- The delay that `rb_event_addish` makes of its own; `rand` is what `rand()` returned. -/
def addishDelay (deltaIsh : Int) (rand : Nat) : Int :=
  if 3 ≤ deltaIsh then
    let twoThird := 2 * deltaIsh / 3
    twoThird + rand % 1000 * twoThird / 1000
  else deltaIsh

/-- `rb_event_addish`. -/
def rbEventAddish (s : State) (func arg : Nat) (deltaIsh : Int) (rand : Nat) : State :=
  rbEventAdd s func arg (addishDelay deltaIsh rand)

/-- `rb_event_find`. -/
def rbEventFind (s : State) (func arg : Nat) : Option Nat :=
  (s.eventList.find? fun x => x.2.func == func && x.2.arg == arg).map Prod.fst

/-- `rb_event_delete`; it takes the event off the list that it is on. -/
def rbEventDelete (s : State) : Option Nat → Option State
  | none => some s
  | some ev =>
    if ev ∈ s.ids then some { s with eventList := s.eventList.filter fun x => x.1 != ev } else none

/-- `rb_event_find_delete`. -/
def rbEventFindDelete (s : State) (func arg : Nat) : Option State :=
  rbEventDelete s (rbEventFind s func arg)

/-- What `rb_event_update` does to an event. -/
def EvEntry.update (now freq : Int) (ev : EvEntry) : EvEntry :=
  { ev with frequency := freq, when := if now + freq < ev.when then now + freq else ev.when }

/-- `rb_event_update`. -/
def rbEventUpdate (s : State) (ev : Option Nat) (freq : Int) : Option State :=
  match ev with
  | none => some s
  | some ev => if ev ∈ s.ids then some (s.modify ev (EvEntry.update s.currentTime freq)) else none

/-- What `rb_set_back_events` makes of a time. -/
def backTime (back when : Int) : Int := if when > back then when - back else 0

/-- `rb_set_back_events`. -/
def rbSetBackEvents (s : State) (back : Int) : State :=
  { s with eventList := s.eventList.map fun x => (x.1, { x.2 with when := backTime back x.2.when }) }

/-- `rb_event_next`. -/
def rbEventNext (s : State) : Int := s.eventTimeMin

/-- The calls, with the parameters of the functions; `clock` is a new time, which `rb_set_time`
    sets. -/
inductive Call
  | add (func arg : Nat) (when : Int)
  | addonce (func arg : Nat) (when : Int)
  | addish (func arg : Nat) (deltaIsh : Int) (rand : Nat)
  | delete (ev : Option Nat)
  | findDelete (func arg : Nat)
  | update (ev : Option Nat) (freq : Int)
  | setBack (back : Int)
  | clock (now : Int)

/-- Times and delays are not negative, and their sums are times. -/
def Call.wellFormed (now : Int) : Call → Bool
  | .add _ _ when => 0 ≤ when && now + when ≤ timeMax
  | .addonce _ _ when => 0 ≤ when && now + when ≤ timeMax
  | .addish _ _ deltaIsh rand =>
    0 ≤ deltaIsh && 2 * deltaIsh ≤ timeMax && rand % 1000 * (2 * deltaIsh / 3) ≤ timeMax
      && now + addishDelay deltaIsh rand ≤ timeMax
  | .delete _ => true
  | .findDelete _ _ => true
  | .update _ freq => 0 ≤ freq && now + freq ≤ timeMax
  | .setBack back => 0 ≤ back
  | .clock t => 0 ≤ t && t ≤ timeMax

/-- Run a call. -/
def Call.run (s : State) : Call → Option State
  | .add func arg when => some (rbEventAdd s func arg when)
  | .addonce func arg when => some (rbEventAddonce s func arg when)
  | .addish func arg deltaIsh rand => some (rbEventAddish s func arg deltaIsh rand)
  | .delete ev => rbEventDelete s ev
  | .findDelete func arg => rbEventFindDelete s func arg
  | .update ev freq => rbEventUpdate s ev freq
  | .setBack back => some (rbSetBackEvents s back)
  | .clock now => some { s with currentTime := now }

-- ============================================================================
-- The loop of rb_event_run
-- ============================================================================

/-- The event behind one on the list. -/
def State.after (s : State) (ev : Nat) : Option Nat :=
  (s.ids.dropWhile (· != ev)).tail.head?

/-- The head of `RB_DLINK_FOREACH_SAFE`, for the event at `ptr`: its `next` is read. -/
def State.enter (s : State) (ptr : Option Nat) : Option State :=
  match ptr with
  | none => some { s with running := .turn none none }
  | some ev => if ev ∈ s.ids then some { s with running := .turn (some ev) (s.after ev) } else none

/-- `rb_event_run` is called. -/
def State.rbEventRun (s : State) : Option State :=
  { s with eventTimeMin := -1 }.enter s.ids.head?

/-- The loop, up to a call of the function of an event that is due. -/
def State.turn (s : State) (ptr next : Option Nat) : Option State :=
  match ptr with
  | none => some { s with running := .idle }
  | some p =>
    (s.entry p).bind fun ev =>
      if ev.when ≤ s.currentTime then some { s with running := .handler p next }
      else (s.lower ev.when).enter next

/-- The rest of the body, behind that call. -/
def State.ret (s : State) (p : Nat) (next : Option Nat) : Option State :=
  (s.entry p).bind fun ev =>
    if ev.frequency ≠ 0 then
      if s.currentTime + ev.frequency ≤ timeMax then
        let when := s.currentTime + ev.frequency
        ((s.modify p fun ev => { ev with when := when }).lower when).enter next
      else none
    else { s with eventList := s.eventList.filter fun x => x.1 != p }.enter next

/-- A call from outside or from the function of an event, a call of `rb_event_run`, or a part
    of its loop. -/
inductive Action
  | call (c : Call)
  | run
  | turn
  | ret

/-- Take a step. -/
def State.step (s : State) : Action → Option State
  | .call c =>
    match s.running with
    | .turn _ _ => none
    | _ => if c.wellFormed s.currentTime then c.run s else none
  | .run => if s.running = .idle then s.rbEventRun else none
  | .turn =>
    match s.running with
    | .turn ptr next => s.turn ptr next
    | _ => none
  | .ret =>
    match s.running with
    | .handler p next => s.ret p next
    | _ => none

-- ============================================================================
-- What the event loop needs
-- ============================================================================

/-- Where nothing is running, the time that `rb_event_next` returns is there, and no listed
    event is due before it. -/
def NoOversleep (s : State) : Prop :=
  s.running = .idle → s.eventList ≠ [] →
    rbEventNext s ≠ -1 ∧ ∀ x ∈ s.eventList, rbEventNext s ≤ x.2.when

/-- The events that a running loop has behind it, or all of them. -/
def State.passed (s : State) : List (Nat × EvEntry) :=
  match s.running with
  | .turn (some p) _ => s.eventList.takeWhile fun x => x.1 != p
  | .handler p _ => s.eventList.takeWhile fun x => x.1 != p
  | _ => s.eventList

/-- The call brings no event forward to a time before the cached one, unless a running loop
    has still to come to it. -/
def Call.InTime (s : State) : Call → Prop
  | .update (some ev) freq => ∀ x ∈ s.passed, x.1 = ev → s.currentTime + freq < x.2.when →
      s.eventTimeMin ≤ s.currentTime + freq
  | .setBack back => ∀ x ∈ s.passed, s.eventTimeMin ≤ backTime back x.2.when
  | _ => True

/-- A step brings no event forward to a time before the cached one. -/
def Action.InTime (s : State) : Action → Prop
  | .call c => c.InTime s
  | _ => True

-- ============================================================================
-- Places on the list
-- ============================================================================

section Places

variable {L l r : List (Nat × EvEntry)} {p : Nat} {ev : EvEntry}

theorem ne_of_split (hnodup : (L.map Prod.fst).Nodup) (h : L = l ++ (p, ev) :: r) :
    ∀ x ∈ l ++ r, x.1 ≠ p := by
  rw [h, List.map_append, List.map_cons, List.nodup_middle, List.nodup_cons, ← List.map_append] at hnodup
  rintro x hx rfl
  exact hnodup.1 (List.mem_map.mpr ⟨x, hx, rfl⟩)

theorem takeWhile_split (hnodup : (L.map Prod.fst).Nodup) (h : L = l ++ (p, ev) :: r) :
    L.takeWhile (fun x => x.1 != p) = l := by
  have hother := ne_of_split hnodup h
  rw [h, List.takeWhile_append_of_pos, List.takeWhile_cons_of_neg (by simp), List.append_nil]
  exact fun x hx => bne_iff_ne.mpr (hother x (List.mem_append_left r hx))

/-- An event is listed once. -/
theorem split_unique {l' r' : List (Nat × EvEntry)} {ev' : EvEntry} (hnodup : (L.map Prod.fst).Nodup)
    (h : L = l ++ (p, ev) :: r) (h' : L = l' ++ (p, ev') :: r') : l' = l ∧ ev' = ev ∧ r' = r := by
  have hl : l' = l := (takeWhile_split hnodup h').symm.trans (takeWhile_split hnodup h)
  subst hl
  obtain ⟨hev, hr⟩ := List.cons.inj (List.append_cancel_left (h.symm.trans h'))
  exact ⟨rfl, (congrArg Prod.snd hev).symm, hr.symm⟩

theorem exists_split {s : State} (h : p ∈ s.ids) :
    ∃ l ev r, s.eventList = l ++ (p, ev) :: r := by
  obtain ⟨⟨q, ev⟩, hmem, rfl⟩ := List.mem_map.mp h
  obtain ⟨l, r, hsplit⟩ := List.append_of_mem hmem
  exact ⟨l, ev, r, hsplit⟩

theorem mem_ids_of_split {s : State} (h : s.eventList = l ++ (p, ev) :: r) : p ∈ s.ids := by
  unfold State.ids
  rw [h, List.map_append, List.map_cons]
  exact List.mem_append_right _ List.mem_cons_self

theorem entry_split {s : State} (hnodup : s.ids.Nodup) (h : s.eventList = l ++ (p, ev) :: r) :
    s.entry p = some ev := by
  have hother := ne_of_split hnodup h
  have hl : l.find? (fun x => x.1 == p) = none := List.find?_eq_none.mpr fun x hx heq =>
    hother x (List.mem_append_left r hx) (beq_iff_eq.mp heq)
  unfold State.entry
  rw [h, List.find?_append, hl, Option.none_or, List.find?_cons_of_pos (by simp)]
  rfl

theorem after_split {s : State} (hnodup : s.ids.Nodup) (h : s.eventList = l ++ (p, ev) :: r) :
    s.after p = (r.map Prod.fst).head? := by
  have hother := ne_of_split hnodup h
  have hl : ∀ q ∈ l.map Prod.fst, (q != p) = true := by
    intro q hq
    obtain ⟨x, hx, rfl⟩ := List.mem_map.mp hq
    exact bne_iff_ne.mpr (hother x (List.mem_append_left r hx))
  unfold State.after State.ids
  rw [h, List.map_append, List.map_cons, List.dropWhile_append_of_pos hl, List.dropWhile_cons_of_neg (by simp)]
  rfl

/-- Writing to an event leaves it where it is. -/
theorem modify_split {s : State} (hnodup : s.ids.Nodup) (h : s.eventList = l ++ (p, ev) :: r)
    (f : EvEntry → EvEntry) : (s.modify p f).eventList = l ++ (p, f ev) :: r := by
  have hother := ne_of_split hnodup h
  have hself : ∀ k ⊆ l ++ r, k.map (fun x => if x.1 = p then (x.1, f x.2) else x) = k := by
    intro k hk
    rw [List.map_congr_left fun x hx => if_neg (hother x (hk hx)), List.map_id']
  unfold State.modify
  dsimp only
  rw [h, List.map_append, List.map_cons, if_pos rfl, hself l (List.subset_append_left l r),
    hself r (List.subset_append_right l r)]

theorem ids_modify (s : State) (p : Nat) (f : EvEntry → EvEntry) : (s.modify p f).ids = s.ids := by
  unfold State.ids State.modify
  rw [List.map_map]
  refine List.map_congr_left fun x _ => ?_
  dsimp only [Function.comp_apply]
  split
  · rfl
  · rfl

theorem filter_split (hnodup : (L.map Prod.fst).Nodup) (h : L = l ++ (p, ev) :: r) :
    (L.filter fun x => x.1 != p) = l ++ r := by
  have hother := ne_of_split hnodup h
  rw [h, List.filter_append, List.filter_cons_of_neg (by simp), ← List.filter_append]
  exact List.filter_eq_self.mpr fun x hx => bne_iff_ne.mpr (hother x hx)

end Places

-- ============================================================================
-- The invariant
-- ============================================================================

/-- The cached time is there, and not later than the events. -/
def Kept (timeMin : Int) (l : List (Nat × EvEntry)) : Prop :=
  ∀ x ∈ l, timeMin ≠ -1 ∧ timeMin ≤ x.2.when

/-- `l` is what a running loop has behind it, or the whole list. -/
def State.Behind (s : State) (l : List (Nat × EvEntry)) : Prop :=
  match s.running with
  | .turn (some p) _ => ∃ ev r, s.eventList = l ++ (p, ev) :: r
  | .handler p _ => ∃ ev r, s.eventList = l ++ (p, ev) :: r
  | _ => l = s.eventList

/-- A loop that runs goes on behind its event, or finds that what it read was freed. -/
def State.Cursor (s : State) : Prop :=
  match s.running with
  | .turn (some p) next => ∃ l ev r, s.eventList = l ++ (p, ev) :: r ∧ (r.map Prod.fst).head? = next
  | .handler p next => p < s.nextEv ∧ (∀ n, next = some n → n < s.nextEv) ∧
      ∀ l ev r, s.eventList = l ++ (p, ev) :: r →
        (r.map Prod.fst).head? = next ∨ ∃ n, next = some n ∧ n ∉ s.ids
  | _ => True

/-- The list is sound, and so are its times. -/
structure Base (s : State) : Prop where
  nodup : s.ids.Nodup
  fresh : ∀ p ∈ s.ids, p < s.nextEv
  time : 0 ≤ s.currentTime
  times : ∀ x ∈ s.eventList, 0 ≤ x.2.when ∧ 0 ≤ x.2.frequency

/-- What is behind a running loop, or the whole list, is not before the cached time. -/
structure Inv (s : State) : Prop extends Base s where
  kept : ∀ l, s.Behind l → Kept s.eventTimeMin l
  cursor : s.Cursor

section Invariant

variable {s s' : State}

theorem inv_start : Inv State.start where
  nodup := List.nodup_nil
  fresh := fun _ h => absurd h List.not_mem_nil
  time := Int.le_refl 0
  times := fun _ h => absurd h List.not_mem_nil
  kept := by
    rintro l rfl x hx
    exact absurd hx List.not_mem_nil
  cursor := trivial

theorem passed_of_behind (h : Base s) {l : List (Nat × EvEntry)} (hl : s.Behind l) : s.passed = l := by
  unfold State.Behind at hl
  unfold State.passed
  cases hr : s.running with
  | idle =>
    rw [hr] at hl
    exact hl.symm
  | turn ptr next =>
    rw [hr] at hl
    cases ptr with
    | none => exact hl.symm
    | some p =>
      obtain ⟨ev, r, hsplit⟩ := hl
      exact takeWhile_split h.nodup hsplit
  | handler p next =>
    rw [hr] at hl
    obtain ⟨ev, r, hsplit⟩ := hl
    exact takeWhile_split h.nodup hsplit

theorem Inv.noOversleep (h : Inv s) : NoOversleep s := by
  intro hidle hne
  have hkept : Kept s.eventTimeMin s.eventList := h.kept _ (by rw [State.Behind, hidle])
  obtain ⟨x, hx⟩ := List.exists_mem_of_ne_nil _ hne
  exact ⟨(hkept x hx).1, fun y hy => (hkept y hy).2⟩

-- ============================================================================
-- Lowering the cached time
-- ============================================================================

theorem eventTimeMin_lower {when : Int} (hwhen : 0 ≤ when) :
    (s.lower when).eventTimeMin ≠ -1 ∧ (s.lower when).eventTimeMin ≤ when := by
  unfold State.lower
  by_cases h : when < s.eventTimeMin ∨ s.eventTimeMin = -1
  · rw [if_pos h]
    dsimp only
    omega
  · rw [if_neg h]
    omega

theorem Kept.lower {l : List (Nat × EvEntry)} (h : Kept s.eventTimeMin l) {when : Int} (hwhen : 0 ≤ when) :
    Kept (s.lower when).eventTimeMin l := by
  intro x hx
  obtain ⟨hne, hle⟩ := h x hx
  unfold State.lower
  by_cases hlow : when < s.eventTimeMin ∨ s.eventTimeMin = -1
  · rw [if_pos hlow]
    dsimp only
    omega
  · rw [if_neg hlow]
    exact ⟨hne, hle⟩

@[simp] theorem eventList_lower (when : Int) : (s.lower when).eventList = s.eventList := by
  unfold State.lower
  split <;> rfl

@[simp] theorem running_lower (when : Int) : (s.lower when).running = s.running := by
  unfold State.lower
  split <;> rfl

@[simp] theorem currentTime_lower (when : Int) : (s.lower when).currentTime = s.currentTime := by
  unfold State.lower
  split <;> rfl

@[simp] theorem nextEv_lower (when : Int) : (s.lower when).nextEv = s.nextEv := by
  unfold State.lower
  split <;> rfl

theorem Base.lower (h : Base s) (when : Int) : Base (s.lower when) where
  nodup := by
    unfold State.ids
    rw [eventList_lower]
    exact h.nodup
  fresh := by
    unfold State.ids
    rw [eventList_lower, nextEv_lower]
    exact h.fresh
  time := by
    rw [currentTime_lower]
    exact h.time
  times := by
    rw [eventList_lower]
    exact h.times

-- ============================================================================
-- Calls
-- ============================================================================

/-- Calls are made from outside or from the function of an event. -/
def State.Calling (s : State) : Prop := ∀ ptr next, s.running ≠ .turn ptr next

/-- A call keeps the invariant if each event that stays has before it what keeps to the cached time, and behind it
    what it had, or else something that was freed. -/
theorem Inv.of_places (h : Inv s) (hcall : s.Calling) (hbase : Base s') (hrun : s'.running = s.running)
    (hnextEv : s.nextEv ≤ s'.nextEv) (hall : s.Behind s.eventList → Kept s'.eventTimeMin s'.eventList)
    (hplace : ∀ p l ev r, p < s.nextEv → s'.eventList = l ++ (p, ev) :: r →
      ∃ l₀ ev₀ r₀, s.eventList = l₀ ++ (p, ev₀) :: r₀ ∧ (s.Behind l₀ → Kept s'.eventTimeMin l) ∧
        ((r.map Prod.fst).head? = (r₀.map Prod.fst).head? ∨
          ∃ n, (r₀.map Prod.fst).head? = some n ∧ n ∉ s'.ids))
    (hfreed : ∀ n, n < s.nextEv → n ∉ s.ids → n ∉ s'.ids) : Inv s' := by
  have hcursor := h.cursor
  refine ⟨hbase, fun l hl => ?_, ?_⟩
  · unfold State.Behind at hl
    unfold State.Cursor at hcursor
    rw [hrun] at hl
    cases hr : s.running with
    | idle =>
      rw [hr] at hl
      subst hl
      exact hall (by rw [State.Behind, hr])
    | turn ptr next => exact absurd hr (hcall ptr next)
    | handler p next =>
      rw [hr] at hl hcursor
      obtain ⟨ev, r, hl⟩ := hl
      obtain ⟨l₀, ev₀, r₀, hold, hkept, -⟩ := hplace p l ev r hcursor.1 hl
      refine hkept ?_
      rw [State.Behind, hr]
      exact ⟨ev₀, r₀, hold⟩
  · unfold State.Cursor at hcursor ⊢
    rw [hrun]
    cases hr : s.running with
    | idle => trivial
    | turn ptr next => exact absurd hr (hcall ptr next)
    | handler p next =>
      rw [hr] at hcursor
      obtain ⟨hp, hnext, hback⟩ := hcursor
      refine ⟨Nat.lt_of_lt_of_le hp hnextEv, fun n hn => Nat.lt_of_lt_of_le (hnext n hn) hnextEv, fun l ev r hl => ?_⟩
      obtain ⟨l₀, ev₀, r₀, hold, -, hhead⟩ := hplace p l ev r hp hl
      rcases hback l₀ ev₀ r₀ hold with hold | ⟨n, hn, hnot⟩
      · rw [hold] at hhead
        exact hhead
      · exact Or.inr ⟨n, hn, hfreed n (hnext n hn) hnot⟩

theorem Inv.put (h : Inv s) (hcall : s.Calling) {ev : EvEntry} (hwhen : 0 ≤ ev.when)
    (hfreq : 0 ≤ ev.frequency) : Inv (s.put ev) := by
  have hnew := @eventTimeMin_lower s ev.when hwhen
  have hold : ∀ {l}, s.Behind l → Kept (s.put ev).eventTimeMin ((s.nextEv, ev) :: l) := fun hl =>
    List.forall_mem_cons.mpr ⟨hnew, (h.kept _ hl).lower hwhen⟩
  have hbase : Base (s.put ev) := by
    refine ⟨?_, fun p hp => ?_, ?_, fun x hx => ?_⟩
    · exact List.nodup_cons.mpr ⟨fun hmem => absurd (h.fresh _ hmem) (Nat.lt_irrefl _), h.nodup⟩
    · rcases List.mem_cons.mp hp with rfl | hp
      · exact Nat.lt_succ_self _
      · exact Nat.lt_succ_of_lt (h.fresh p hp)
    · have htime : (s.put ev).currentTime = s.currentTime := currentTime_lower _
      rw [htime]
      exact h.time
    · rcases List.mem_cons.mp hx with rfl | hx
      · exact ⟨hwhen, hfreq⟩
      · exact h.times x hx
  refine h.of_places hcall hbase (running_lower _) (Nat.le_succ _) hold (fun p l ev' r hp hl => ?_) ?_
  · cases l with
    | nil =>
      have heq : s.nextEv = p := congrArg Prod.fst (List.cons.inj hl).1
      exact absurd hp (by omega)
    | cons x l =>
      obtain ⟨rfl, htail⟩ := List.cons.inj hl
      exact ⟨l, ev', r, htail, hold, Or.inl rfl⟩
  · intro n hn hnot hmem
    rcases List.mem_cons.mp hmem with heq | hmem
    · exact absurd heq (Nat.ne_of_lt hn)
    · exact hnot hmem

theorem Inv.delete (h : Inv s) (hcall : s.Calling) {ev : Option Nat} (hs : rbEventDelete s ev = some s') :
    Inv s' := by
  cases ev with
  | none =>
    obtain rfl := Option.some.inj hs
    exact h
  | some q =>
    unfold rbEventDelete at hs
    dsimp only at hs
    split at hs
    case isFalse => cases hs
    obtain rfl := Option.some.inj hs
    have hsub : ∀ p ∈ (s.eventList.filter fun x => x.1 != q).map Prod.fst, p ∈ s.ids ∧ p ≠ q := by
      intro p hp
      obtain ⟨x, hx, rfl⟩ := List.mem_map.mp hp
      obtain ⟨hmem, hne⟩ := List.mem_filter.mp hx
      exact ⟨List.mem_map.mpr ⟨x, hmem, rfl⟩, bne_iff_ne.mp hne⟩
    have hnodup : ((s.eventList.filter fun x => x.1 != q).map Prod.fst).Nodup :=
      h.nodup.sublist (List.filter_sublist.map Prod.fst)
    have hkept : ∀ {l}, s.Behind l → Kept s.eventTimeMin (l.filter fun x => x.1 != q) := fun hl x hx =>
      h.kept _ hl x (List.mem_of_mem_filter hx)
    have hbase : Base { s with eventList := s.eventList.filter fun x => x.1 != q } :=
      ⟨hnodup, fun p hp => h.fresh p (hsub p hp).1, h.time, fun x hx => h.times x (List.mem_of_mem_filter hx)⟩
    refine h.of_places hcall hbase rfl (Nat.le_refl _) hkept (fun p l ev r _ hl => ?_) fun n _ hnot hmem =>
      hnot (hsub n hmem).1
    -- what is around an event that stays
    dsimp only at hl
    have hp := hsub p (by
      rw [hl, List.map_append, List.map_cons]
      exact List.mem_append_right _ List.mem_cons_self)
    obtain ⟨l₀, ev₀, r₀, hold⟩ := exists_split hp.1
    have hfilter : (s.eventList.filter fun x => x.1 != q) =
        l₀.filter (fun x => x.1 != q) ++ (p, ev₀) :: r₀.filter fun x => x.1 != q := by
      rw [hold, List.filter_append,
        List.filter_cons_of_pos (p := fun x : Nat × EvEntry => x.1 != q) (bne_iff_ne.mpr hp.2)]
    obtain ⟨rfl, rfl, rfl⟩ := split_unique hnodup hfilter hl
    refine ⟨l₀, ev, r₀, hold, hkept, ?_⟩
    cases r₀ with
    | nil => exact Or.inl rfl
    | cons x r₀ =>
      by_cases hx : x.1 = q
      · exact Or.inr ⟨q, congrArg some hx, fun hmem => (hsub q hmem).2 rfl⟩
      · rw [List.filter_cons_of_pos (p := fun x : Nat × EvEntry => x.1 != q) (bne_iff_ne.mpr hx)]
        exact Or.inl rfl

/-- Events get other times, none of them before the cached one in what is behind. -/
theorem Inv.map (h : Inv s) (hcall : s.Calling) {g : Nat × EvEntry → Nat × EvEntry}
    (hfst : ∀ x, (g x).1 = x.1) (htimes : ∀ x ∈ s.eventList, 0 ≤ (g x).2.when ∧ 0 ≤ (g x).2.frequency)
    (hle : ∀ x ∈ s.passed, s.eventTimeMin ≤ x.2.when → s.eventTimeMin ≤ (g x).2.when) :
    Inv { s with eventList := s.eventList.map g } := by
  have hmapfst : ∀ l : List (Nat × EvEntry), (l.map g).map Prod.fst = l.map Prod.fst := by
    intro l
    rw [List.map_map]
    exact List.map_congr_left fun x _ => hfst x
  have hids : (State.ids { s with eventList := s.eventList.map g }) = s.ids := hmapfst s.eventList
  have hkept : ∀ {l}, s.Behind l → Kept s.eventTimeMin (l.map g) := by
    intro l hl x hx
    obtain ⟨y, hy, rfl⟩ := List.mem_map.mp hx
    obtain ⟨hne, hold⟩ := h.kept l hl y hy
    exact ⟨hne, hle y (passed_of_behind h.toBase hl ▸ hy) hold⟩
  have hbase : Base { s with eventList := s.eventList.map g } := by
    refine ⟨hids ▸ h.nodup, hids ▸ h.fresh, h.time, fun x hx => ?_⟩
    obtain ⟨y, hy, rfl⟩ := List.mem_map.mp hx
    exact htimes y hy
  refine h.of_places hcall hbase rfl (Nat.le_refl _) hkept (fun p l ev r _ hl => ?_) fun n _ hnot => hids ▸ hnot
  obtain ⟨l₀, k, hold, rfl, hk⟩ := List.map_eq_append_iff.mp hl
  obtain ⟨⟨q, ev₀⟩, r₀, rfl, hq, rfl⟩ := List.map_eq_cons_iff.mp hk
  obtain rfl : q = p := (hfst (q, ev₀)).symm.trans (congrArg Prod.fst hq)
  exact ⟨l₀, ev₀, r₀, hold, hkept, Or.inl (by rw [hmapfst])⟩

theorem Inv.clock (h : Inv s) {now : Int} (hnow : 0 ≤ now) : Inv { s with currentTime := now } :=
  ⟨⟨h.nodup, h.fresh, hnow, h.times⟩, h.kept, h.cursor⟩

theorem backTime_nonneg (back when : Int) : 0 ≤ backTime back when := by
  unfold backTime
  split
  · omega
  · exact Int.le_refl 0

theorem addishDelay_nonneg {deltaIsh : Int} (h : 0 ≤ deltaIsh) (rand : Nat) :
    0 ≤ addishDelay deltaIsh rand := by
  unfold addishDelay
  split
  · have hthird : 0 ≤ 2 * deltaIsh / 3 := by omega
    have hrand : 0 ≤ (rand : Int) % 1000 * (2 * deltaIsh / 3) := Int.mul_nonneg (by omega) hthird
    dsimp only
    omega
  · exact h

theorem Inv.call (h : Inv s) (hcall : s.Calling) {c : Call} (hwf : c.wellFormed s.currentTime = true)
    (hok : c.InTime s) (hs : c.run s = some s') : Inv s' := by
  have htime := h.time
  cases c with
  | add func arg when =>
    obtain rfl := Option.some.inj hs
    simp only [Call.wellFormed, Bool.and_eq_true, decide_eq_true_eq] at hwf
    exact h.put hcall (by dsimp only; omega) hwf.1
  | addonce func arg when =>
    obtain rfl := Option.some.inj hs
    simp only [Call.wellFormed, Bool.and_eq_true, decide_eq_true_eq] at hwf
    exact h.put hcall (by dsimp only; omega) (Int.le_refl 0)
  | addish func arg deltaIsh rand =>
    obtain rfl := Option.some.inj hs
    simp only [Call.wellFormed, Bool.and_eq_true, decide_eq_true_eq] at hwf
    have hdelay := addishDelay_nonneg hwf.1.1.1 rand
    exact h.put hcall (by dsimp only; omega) hdelay
  | delete ev => exact h.delete hcall hs
  | findDelete func arg => exact h.delete hcall hs
  | update ev freq =>
    simp only [Call.wellFormed, Bool.and_eq_true, decide_eq_true_eq] at hwf
    cases ev with
    | none =>
      obtain rfl := Option.some.inj hs
      exact h
    | some ev =>
      unfold Call.run rbEventUpdate at hs
      dsimp only at hs
      split at hs
      case isFalse => cases hs
      obtain rfl := Option.some.inj hs
      refine h.map hcall (fun x => ?_) (fun x hx => ?_) fun x hx hold => ?_
      · split
        · rfl
        · rfl
      · obtain ⟨hwhen, hfreq⟩ := h.times x hx
        split
        · dsimp only [EvEntry.update]
          refine ⟨?_, hwf.1⟩
          split
          · omega
          · exact hwhen
        · exact ⟨hwhen, hfreq⟩
      · split
        · rename_i heq
          dsimp only [EvEntry.update]
          split
          · exact hok x hx heq ‹_›
          · exact hold
        · exact hold
  | setBack back =>
    obtain rfl := Option.some.inj hs
    refine h.map hcall (fun _ => rfl) (fun x hx => ?_) fun x hx _ => hok x hx
    exact ⟨backTime_nonneg back x.2.when, (h.times x hx).2⟩
  | clock now =>
    obtain rfl := Option.some.inj hs
    simp only [Call.wellFormed, Bool.and_eq_true, decide_eq_true_eq] at hwf
    exact h.clock hwf.1

-- ============================================================================
-- The loop
-- ============================================================================

/-- The loop goes on to the event behind `a`. -/
theorem Base.enter (h : Base s) {a r : List (Nat × EvEntry)} {next : Option Nat}
    (hsplit : s.eventList = a ++ r) (hkept : Kept s.eventTimeMin a)
    (hnext : (r.map Prod.fst).head? = next) (hs : s.enter next = some s') : Inv s' := by
  unfold State.enter at hs
  cases r with
  | nil =>
    subst hnext
    obtain rfl := Option.some.inj hs
    rw [List.append_nil] at hsplit
    refine ⟨⟨h.nodup, h.fresh, h.time, h.times⟩, ?_, trivial⟩
    rintro l rfl
    rw [hsplit]
    exact hkept
  | cons x r =>
    obtain ⟨n, ev⟩ := x
    subst hnext
    rw [List.map_cons, List.head?_cons] at hs
    dsimp only at hs
    split at hs
    case isFalse => cases hs
    obtain rfl := Option.some.inj hs
    refine ⟨⟨h.nodup, h.fresh, h.time, h.times⟩, ?_, ?_⟩
    · rintro l ⟨ev', r', hl⟩
      rw [(split_unique h.nodup hsplit hl).1]
      exact hkept
    · exact ⟨a, ev, r, hsplit, (after_split h.nodup hsplit).symm⟩

/-- A freed event has no next one. -/
theorem enter_freed {n : Nat} (h : n ∉ s.ids) : s.enter (some n) = none := if_neg h

theorem Inv.run (h : Inv s) (hs : s.rbEventRun = some s') : Inv s' := by
  have hbase : Base { s with eventTimeMin := -1 } := ⟨h.nodup, h.fresh, h.time, h.times⟩
  exact hbase.enter (List.nil_append _).symm (fun x hx => absurd hx List.not_mem_nil) rfl hs

theorem Inv.turn (h : Inv s) {ptr next : Option Nat} (hrun : s.running = .turn ptr next)
    (hs : s.turn ptr next = some s') : Inv s' := by
  have hcursor := h.cursor
  unfold State.Cursor at hcursor
  rw [hrun] at hcursor
  unfold State.turn at hs
  cases ptr with
  | none =>
    obtain rfl := Option.some.inj hs
    refine ⟨⟨h.nodup, h.fresh, h.time, h.times⟩, ?_, trivial⟩
    rintro l rfl
    exact h.kept _ (by rw [State.Behind, hrun])
  | some p =>
    obtain ⟨l, ev, r, hsplit, hnext⟩ := hcursor
    have hkept : Kept s.eventTimeMin l := h.kept l (by
      rw [State.Behind, hrun]
      exact ⟨ev, r, hsplit⟩)
    dsimp only at hs
    rw [entry_split h.nodup hsplit, Option.bind_some] at hs
    have hmem : (p, ev) ∈ s.eventList := by
      rw [hsplit]
      exact List.mem_append_right l List.mem_cons_self
    by_cases hdue : ev.when ≤ s.currentTime
    · rw [if_pos hdue] at hs
      obtain rfl := Option.some.inj hs
      refine ⟨⟨h.nodup, h.fresh, h.time, h.times⟩, ?_, ?_⟩
      · rintro l' ⟨ev', r', hl⟩
        exact h.kept l' (by
          rw [State.Behind, hrun]
          exact ⟨ev', r', hl⟩)
      · refine ⟨h.fresh p (mem_ids_of_split hsplit), fun n hn => ?_, fun l' ev' r' hl => ?_⟩
        · rw [← hnext] at hn
          refine h.fresh n ?_
          unfold State.ids
          rw [hsplit, List.map_append, List.map_cons]
          exact List.mem_append_right _ (List.mem_cons_of_mem _ (List.mem_of_head? hn))
        · rw [(split_unique h.nodup hsplit hl).2.2]
          exact Or.inl hnext
    · rw [if_neg hdue] at hs
      have hwhen := (h.times _ hmem).1
      refine (h.toBase.lower ev.when).enter (a := l ++ [(p, ev)]) (r := r) ?_ ?_ hnext hs
      · rw [eventList_lower, hsplit, List.append_assoc]
        rfl
      · intro x hx
        rcases List.mem_append.mp hx with hx | hx
        · exact hkept.lower hwhen x hx
        · obtain rfl := List.mem_singleton.mp hx
          exact eventTimeMin_lower hwhen

theorem Inv.ret (h : Inv s) {p : Nat} {next : Option Nat} (hrun : s.running = .handler p next)
    (hs : s.ret p next = some s') : Inv s' := by
  have hcursor := h.cursor
  unfold State.Cursor at hcursor
  rw [hrun] at hcursor
  obtain ⟨hp, -, hback⟩ := hcursor
  unfold State.ret at hs
  obtain ⟨ev, hentry, hs⟩ := Option.bind_eq_some_iff.mp hs
  -- the event is still listed
  have hmem : p ∈ s.ids := by
    obtain ⟨x, hfind, -⟩ := Option.map_eq_some_iff.mp hentry
    have hx := List.find?_some hfind
    exact List.mem_map.mpr ⟨x, List.mem_of_find?_eq_some hfind, beq_iff_eq.mp hx⟩
  obtain ⟨l, ev', r, hsplit⟩ := exists_split hmem
  obtain rfl : ev' = ev := Option.some.inj ((entry_split h.nodup hsplit).symm.trans hentry)
  have hkept : Kept s.eventTimeMin l := h.kept l (by
    rw [State.Behind, hrun]
    exact ⟨ev', r, hsplit⟩)
  have hpair : (p, ev') ∈ s.eventList := by
    rw [hsplit]
    exact List.mem_append_right l List.mem_cons_self
  by_cases hfreq : ev'.frequency ≠ 0
  · -- it is due again
    rw [if_pos hfreq] at hs
    split at hs
    case isFalse => cases hs
    dsimp only at hs
    have htime := h.time
    have hnow : 0 ≤ s.currentTime + ev'.frequency := by
      have hfrequency := (h.times _ hpair).2
      dsimp only at hfrequency
      omega
    generalize s.currentTime + ev'.frequency = due at hnow hs
    have hmodify := modify_split h.nodup hsplit fun ev => { ev with when := due }
    have hids := ids_modify s p fun ev => { ev with when := due }
    have hbase : Base (s.modify p fun ev => { ev with when := due }) := by
      refine ⟨hids ▸ h.nodup, hids ▸ h.fresh, h.time, fun x hx => ?_⟩
      rw [hmodify] at hx
      rcases List.mem_append.mp hx with hx | hx
      · exact h.times x (hsplit ▸ List.mem_append_left _ hx)
      · rcases List.mem_cons.mp hx with rfl | hx
        · exact ⟨hnow, (h.times _ hpair).2⟩
        · exact h.times x (hsplit ▸ List.mem_append_right _ (List.mem_cons_of_mem _ hx))
    rcases hback l ev' r hsplit with hnext | ⟨n, rfl, hfreed⟩
    · refine (hbase.lower due).enter (a := l ++ [(p, { ev' with when := due })]) (r := r) ?_ ?_ hnext hs
      · rw [eventList_lower, hmodify, List.append_assoc]
        rfl
      · intro x hx
        rcases List.mem_append.mp hx with hx | hx
        · exact Kept.lower (s := s.modify p fun ev => { ev with when := due }) hkept hnow x hx
        · obtain rfl := List.mem_singleton.mp hx
          exact eventTimeMin_lower hnow
    · rw [enter_freed] at hs
      · cases hs
      · unfold State.ids at hids ⊢
        rw [eventList_lower, hids]
        exact hfreed
  · -- it was to run once
    rw [if_neg hfreq] at hs
    have hfilter := filter_split h.nodup hsplit
    have hsublist : List.Sublist (l ++ r) s.eventList := by
      rw [hsplit]
      exact List.Sublist.append_left (List.sublist_cons_self _ _) l
    have hbase : Base { s with eventList := s.eventList.filter fun x => x.1 != p } := by
      rw [hfilter]
      exact ⟨h.nodup.sublist (hsublist.map Prod.fst), fun q hq => h.fresh q ((hsublist.map Prod.fst).subset hq),
        h.time, fun x hx => h.times x (hsublist.subset hx)⟩
    rcases hback l ev' r hsplit with hnext | ⟨n, rfl, hfreed⟩
    · exact hbase.enter hfilter hkept hnext hs
    · rw [enter_freed] at hs
      · cases hs
      · intro hmem
        exact hfreed ((List.filter_sublist.map Prod.fst).subset hmem)

-- ============================================================================
-- Whole runs
-- ============================================================================

theorem step_call {c : Call} (hs : s.step (.call c) = some s') :
    s.Calling ∧ c.wellFormed s.currentTime = true ∧ c.run s = some s' := by
  unfold State.step at hs
  dsimp only at hs
  split at hs
  · cases hs
  · rename_i hcall
    split at hs
    · exact ⟨hcall, ‹_›, hs⟩
    · cases hs

theorem step_turn (hs : s.step .turn = some s') :
    ∃ ptr next, s.running = .turn ptr next ∧ s.turn ptr next = some s' := by
  unfold State.step at hs
  dsimp only at hs
  split at hs
  · exact ⟨_, _, ‹_›, hs⟩
  · cases hs

theorem step_ret (hs : s.step .ret = some s') :
    ∃ p next, s.running = .handler p next ∧ s.ret p next = some s' := by
  unfold State.step at hs
  dsimp only at hs
  split at hs
  · exact ⟨_, _, ‹_›, hs⟩
  · cases hs

theorem Inv.step (h : Inv s) {a : Action} (hok : a.InTime s) (hs : s.step a = some s') : Inv s' := by
  cases a with
  | call c =>
    obtain ⟨hcall, hwf, hrun⟩ := step_call hs
    exact h.call hcall hwf hok hrun
  | run =>
    unfold State.step at hs
    dsimp only at hs
    split at hs
    · exact h.run hs
    · cases hs
  | turn =>
    obtain ⟨ptr, next, hrunning, hturn⟩ := step_turn hs
    exact h.turn hrunning hturn
  | ret =>
    obtain ⟨p, next, hrunning, hret⟩ := step_ret hs
    exact h.ret hrunning hret

/-- In every run in which no step brings an event forward to a time before the cached one, the
    event loop never oversleeps. -/
theorem noOversleep_of_run {s : State}
    (h : Reach State.step (fun s a => a.InTime s) State.start s) : NoOversleep s :=
  (h.invariant (P := Inv) inv_start fun _ _ _ hinv hok hs => hinv.step hok hs).noOversleep

/-- Outside of a loop the condition is exact: a call keeps the cached time early enough iff it
    is in time. -/
theorem noOversleep_call_iff (h : Inv s) (hidle : s.running = .idle) {c : Call}
    (hs : s.step (.call c) = some s') : NoOversleep s' ↔ c.InTime s := by
  refine ⟨fun hnext => ?_, fun hok => (h.step (a := .call c) hok hs).noOversleep⟩
  obtain ⟨-, -, hrun⟩ := step_call hs
  have hpassed : s.passed = s.eventList := by rw [State.passed, hidle]
  cases c with
  | update ev freq =>
    cases ev with
    | none => trivial
    | some ev =>
      unfold Call.run rbEventUpdate at hrun
      dsimp only at hrun
      split at hrun
      case isFalse => cases hrun
      obtain rfl := Option.some.inj hrun
      intro x hx heq hlt
      rw [hpassed] at hx
      have hmem : (x.1, x.2.update s.currentTime freq) ∈ (s.modify ev (EvEntry.update s.currentTime freq)).eventList :=
        List.mem_map.mpr ⟨x, hx, if_pos heq⟩
      have hle := (hnext hidle (List.ne_nil_of_mem hmem)).2 _ hmem
      dsimp only [EvEntry.update] at hle
      rw [if_pos hlt] at hle
      exact hle
  | setBack back =>
    obtain rfl := Option.some.inj hrun
    intro x hx
    rw [hpassed] at hx
    have hmem : (x.1, { x.2 with when := backTime back x.2.when }) ∈ (rbSetBackEvents s back).eventList :=
      List.mem_map.mpr ⟨x, hx, rfl⟩
    exact (hnext hidle (List.ne_nil_of_mem hmem)).2 _ hmem
  | add func arg when => trivial
  | addonce func arg when => trivial
  | addish func arg deltaIsh rand => trivial
  | delete ev => trivial
  | findDelete func arg => trivial
  | clock now => trivial

end Invariant

/-- An event that adds another one when it runs. -/
theorem noOversleep_after_run : NoOversleep
    ([.call (.add 1 0 50), .call (.clock 60), .run, .turn, .call (.addonce 2 0 5), .ret, .turn].foldl
      (Reach.perform State.step) State.start) := by
  refine noOversleep_of_run ?_
  simp only [List.foldl_cons, List.foldl_nil]
  exact (((((((Reach.init.performed trivial).performed trivial).performed trivial).performed trivial).performed
    trivial).performed trivial).performed trivial)

/-- An event that is due at 50 is moved to 10, and the cached time is still 50. -/
theorem not_noOversleep : ¬ ∀ s, Reach State.step anyStep State.start s → NoOversleep s := by
  intro h
  have hreach : Reach State.step anyStep State.start
      ([.call (.add 1 0 50), .call (.update (some 0) 10)].foldl (Reach.perform State.step) State.start) :=
    Reach.performed_all _ .init
  have hlate := (h _ hreach (by decide) (by decide)).2 (0, ⟨1, 0, 10, 10⟩) (by decide)
  exact absurd hlate (by decide)

end Bluebox.Event
