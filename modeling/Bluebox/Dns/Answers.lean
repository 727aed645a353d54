/-
  Bluebox.Dns.Answers

  Whose answer an answer is.

  `cancel_lookup` tells the resolver nothing, so that an answer may come long after the
  one who asked is gone, when its number may be another's.  `Ledger` keeps what has been
  asked beside the world; `late_answer` says how long an answer can take.
-/
import Bluebox.Dns.Runs
import Bluebox.Lib.Ring

namespace Bluebox.Dns

open Bluebox.Lib

variable {w w' : World} {e : Event} {o : Owner}

-- ============================================================================
-- What a step does to querytable
-- ============================================================================

/-- Entries are emptied, and there are no new ones. -/
def Shrinks (w w' : World) : Prop :=
  w'.id = w.id ∧ ∀ i, w'.querytable i = none ∨ w'.querytable i = w.querytable i

theorem Shrinks.refl (w : World) : Shrinks w w := ⟨rfl, fun _ => .inr rfl⟩

theorem Shrinks.trans {w'' : World} (h : Shrinks w w') (h' : Shrinks w' w'') : Shrinks w w'' := by
  refine ⟨h'.1.trans h.1, fun i => ?_⟩
  rcases h'.2 i with hnone | hsame
  · exact .inl hnone
  · rw [hsame]
    exact h.2 i

theorem shrinks_cancelLookup (w : World) (i : Nat) : Shrinks w (cancelLookup w i) := by
  refine ⟨rfl, fun j => ?_⟩
  simp only [cancelLookup, Function.update_apply]
  by_cases hj : j = i <;> simp [hj]

theorem shrinks_closeAuthF (w : World) (a : Nat) (q : Auth) : Shrinks w (closeAuthF w a q) := ⟨rfl, fun _ => .inr rfl⟩

theorem shrinks_setAuth (w : World) (a : Nat) (q : Auth) : Shrinks w (w.setAuth a q) := ⟨rfl, fun _ => .inr rfl⟩

theorem shrinks_releaseAuthClient {caller : Caller} {a : Nat} (h : releaseAuthClient w caller a = some w') : Shrinks w w' := by
  simp only [releaseAuthClient] at h
  cases hq : w.auths a with
  | none => simp [hq] at h
  | some q =>
    simp only [hq] at h
    split at h <;> cases h <;> exact ⟨rfl, fun _ => .inr rfl⟩

theorem shrinks_identOver {a : Nat} (h : identOver w a = some w') : Shrinks w w' := by
  simp only [identOver] at h
  cases hq : w.auths a with
  | none => simp [hq] at h
  | some q =>
    simp only [hq] at h
    exact (shrinks_closeAuthF w a _).trans (shrinks_releaseAuthClient h)

theorem shrinks_finishLookup {i : Nat} (h : finishLookup w i = some w') : Shrinks w w' := by
  simp only [finishLookup] at h
  cases ho : w.querytable i with
  | none =>
    rw [ho, Option.some.injEq] at h
    exact h ▸ Shrinks.refl w
  | some o =>
    simp only [ho, Option.map_eq_some_iff] at h
    obtain ⟨w₁, hw₁, rfl⟩ := h
    have hend : Shrinks w₁ (if w₁.reading = none then cancelLookup w₁ i else w₁) := by
      split
      · exact shrinks_cancelLookup w₁ i
      · exact Shrinks.refl w₁
    refine Shrinks.trans ?_ hend
    cases o with
    | auth a =>
      simp only [runCallback, authDnsCallback] at hw₁
      cases hq : w.auths a with
      | none => simp [hq] at hw₁
      | some q =>
        simp only [hq] at hw₁
        exact (shrinks_setAuth w a _).trans (shrinks_releaseAuthClient hw₁)
    | conf c =>
      simp only [runCallback, confDnsCallback] at hw₁
      cases hc : w.confs c with
      | none => simp [hc] at hw₁
      | some i' =>
        simp only [hc, Option.some.injEq] at hw₁
        exact hw₁ ▸ ⟨rfl, fun _ => .inr rfl⟩

theorem shrinks_timeoutAuth {now : Int} {a : Nat} {next : Option Nat} (h : timeoutAuth now w a next = some w') : Shrinks w w' := by
  simp only [timeoutAuth] at h
  cases hq : w.auths a with
  | none => simp [hq] at h
  | some q =>
    simp only [hq] at h
    split at h
    · refine Shrinks.trans ?_ (shrinks_releaseAuthClient h)
      split
      · exact (shrinks_closeAuthF w a _).trans (shrinks_cancelLookup _ _)
      · exact shrinks_closeAuthF w a _
    · cases h
      exact Shrinks.refl w

theorem shrinks_timeoutLoop {now : Int} (l : List Nat) : ∀ {w : World}, timeoutLoop now w l = some w' → Shrinks w w' := by
  induction l with
  | nil => exact fun h => by cases h; exact Shrinks.refl _
  | cons a l ih =>
    intro w h
    obtain ⟨w₁, hw₁, hrest⟩ := Option.bind_eq_some_iff.mp h
    refine (shrinks_timeoutAuth hw₁).trans ?_
    split at hrest
    · exact ih hrest
    · cases hrest
      exact Shrinks.refl _

theorem shrinks_readPacketReturns (h : readPacketReturns w = some w') : Shrinks w w' := by
  unfold readPacketReturns at h
  split at h
  · cases h
  · rename_i nid _
    cases h
    exact (shrinks_cancelLookup w nid).trans ⟨rfl, fun _ => .inr rfl⟩
  · cases h
    exact ⟨rfl, fun _ => .inr rfl⟩
  · cases h
    exact ⟨rfl, fun _ => .inr rfl⟩
  · obtain ⟨-, -, hloop⟩ := Option.bind_eq_some_iff.mp h
    have hs := shrinks_timeoutLoop _ hloop
    exact ⟨hs.1, hs.2⟩

theorem shrinks_deleteAuthQueries {client : Nat} (h : deleteAuthQueries w client = some w') : Shrinks w w' := by
  simp only [deleteAuthQueries] at h
  cases hc : w.authRequest client with
  | none =>
    rw [hc, Option.some.injEq] at h
    exact h ▸ Shrinks.refl w
  | some a =>
    cases hq : w.auths a with
    | none => simp [hc, hq] at h
    | some q =>
      simp only [hc, hq, Option.some.injEq] at h
      rw [← h]
      by_cases hwaits : q.dns = true ∧ q.dnsQuery > 0
      · rw [if_pos hwaits]
        exact (shrinks_cancelLookup w q.dnsQuery).trans ⟨rfl, fun _ => .inr rfl⟩
      · rw [if_neg hwaits]
        exact ⟨rfl, fun _ => .inr rfl⟩

/-- Who asks in a step. -/
def Event.asks (w : World) : Event → Option Owner
  | .connect .. => some (.auth (w.next + 1))
  | .addConf _ => some (.conf w.next)
  | _ => none

theorem run_of_step (h : step w e = some w') : e.run w = some w' ∧ (w.reading = none ∨ e.nested = true) := by
  unfold step at h
  split at h
  · exact ⟨h, by assumption⟩
  · cases h

theorem shrinks_of_asks_none (hasks : e.asks w = none) (h : step w e = some w') : Shrinks w w' := by
  replace h := (run_of_step h).1
  cases e with
  | connect | addConf => simp [Event.asks] at hasks
  | answer nid =>
    simp only [Event.run, resultsCallback] at h
    split at h
    · exact shrinks_finishLookup h
    · simp at h
  | ident F more =>
    simp only [Event.run, identEvent] at h
    cases hF : w.sockets F with
    | none =>
      rw [hF, Option.some.injEq] at h
      exact h ▸ Shrinks.refl w
    | some a =>
      simp only [hF] at h
      split at h
      · simp only [Option.map_eq_some_iff] at h
        obtain ⟨q, -, rfl⟩ := h
        exact Shrinks.refl w
      · exact shrinks_identOver h
  | timer now => exact shrinks_timeoutLoop _ h
  | exit client => exact shrinks_deleteAuthQueries h
  | freeConf c =>
    simp only [Event.run, freeServerConf] at h
    cases hc : w.confs c with
    | none => simp [hc] at h
    | some i =>
      simp only [hc, Option.some.injEq] at h
      exact h ▸ (shrinks_cancelLookup w i).trans ⟨rfl, fun _ => .inr rfl⟩
  | restart started =>
    simp only [Event.run, restartResolver] at h
    split at h
    · cases h
      exact ⟨rfl, fun _ => .inr rfl⟩
    · simp at h
  | readEnd => exact shrinks_readPacketReturns h

theorem takes_of_asks (hinv : Inv none none w) (hasks : e.asks w = some o) (h : step w e = some w') : Takes w w' o := by
  obtain ⟨h, hwhen⟩ := run_of_step h
  cases e with
  | connect disableAuth ident started timeout =>
    simp only [Event.asks, Option.some.injEq] at hasks
    exact hasks ▸ ((hinv.startAuth (by simpa [Event.nested] using hwhen) disableAuth ident started timeout).1 w' h).2
  | addConf started =>
    simp only [Event.asks, Option.some.injEq] at hasks
    exact hasks ▸ ((hinv.addServerConf started).1 w' h).2
  | answer | ident | timer | exit | freeConf | restart | readEnd => simp [Event.asks] at hasks

-- ============================================================================
-- What has been asked
-- ============================================================================

/-- A question: its number, who asks, the how manieth it is, and how many were waiting for
    an answer when it was asked. -/
structure Ask where
  nid : Nat
  owner : Owner
  made : Nat
  waiting : Nat

/-- The world, with the questions asked so far. -/
structure Ledger where
  world : World
  asks : List Ask

/-- The numbers that are in use. -/
def inUse (w : World) : List Nat := (List.range idtable).filter fun i => (w.querytable i).isSome

/-- A step, with its question if it asks one. -/
def Ledger.step (l : Ledger) (e : Event) : Option Ledger :=
  (Dns.step l.world e).map fun w =>
    match e.asks l.world with
    | none => { l with world := w }
    | some o => ⟨w, ⟨w.id, o, l.asks.length + 1, (inUse l.world).length⟩ :: l.asks⟩

/-- Nothing has been asked. -/
def Ledger.start : Ledger := ⟨World.start, []⟩

-- ============================================================================
-- The ring of numbers
-- ============================================================================

/-- The numbers there are. -/
def numbers : Nat := idtable - 1

/-- The numbers are the slots of a ring, and `own` says who asked at a turn. -/
structure Tracked (l : Ledger) (r : Ring) (own : Nat → Owner) : Prop where
  inv : Inv none none l.world
  ok : r.Ok numbers
  turn : l.world.id = idAt r.turn
  held : ∀ s < numbers, l.world.querytable (s + 1) = (r.held s).map own
  asked : ∀ a ∈ l.asks, a.made ≤ l.asks.length ∧ ∃ t waiting, idAt t = a.nid ∧ own t = a.owner ∧ t ≤ r.turn ∧
    t % numbers ∉ waiting ∧ waiting.length = a.waiting ∧
    (l.asks.length - a.made + waiting.length < numbers → Ring.Since numbers t waiting r (l.asks.length - a.made))

theorem idAt_eq (turn : Nat) : idAt turn = turn % numbers + 1 := rfl

theorem mod_numbers_lt (turn : Nat) : turn % numbers < numbers := Nat.mod_lt _ (by simp [numbers, idtable])

theorem tracked_start : Tracked Ledger.start Ring.start fun _ => .auth 0 where
  inv := inv_start
  ok := Ring.ok_start
  turn := rfl
  held := fun _ _ => rfl
  asked := by simp [Ledger.start]

variable {l l' : Ledger} {r : Ring} {own : Nat → Owner}

/-- A turn at which a number is taken is remembered with the one who has asked. -/
theorem map_update {held : Option Nat} {t : Nat} (hlt : ∀ v, held = some v → v ≠ t) (o : Owner) :
    held.map (Function.update own t o) = held.map own := by
  cases held with
  | none => rfl
  | some v => rw [Option.map_some, Option.map_some, Function.update_of_ne (hlt v rfl)]

theorem Tracked.shrink (h : Tracked l r own) (hinv : Inv none none w') (hs : Shrinks l.world w') :
    ∃ r', Tracked { l with world := w' } r' own := by
  refine ⟨r.keep fun s => (w'.querytable (s + 1)).isSome, hinv, h.ok.keep _, hs.1.trans h.turn, fun s hlt => ?_, fun a ha => ?_⟩
  · have hheld := h.held s hlt
    show w'.querytable (s + 1) = (if (w'.querytable (s + 1)).isSome then r.held s else none).map own
    rcases hs.2 (s + 1) with hnone | hsame
    · simp [hnone]
    · cases hr : r.held s with
      | none => rw [hsame, hheld, hr]; rfl
      | some v => rw [hsame, hheld, hr]; rfl
  · obtain ⟨hmade, t, waiting, hnid, hown, hturn, hnew, hlen, hsince⟩ := h.asked a ha
    exact ⟨hmade, t, waiting, hnid, hown, hturn, hnew, hlen, fun hlt => (hsince hlt).keep _⟩

/-- A number that is free is not among those in use. -/
theorem not_mem_waiting {s : Nat} (hinv : Inv none none w) (hfree : w.querytable (s + 1) = none) :
    s ∉ (inUse w).map (· - 1) := by
  intro hmem
  obtain ⟨i, hi, rfl⟩ := List.mem_map.mp hmem
  obtain ⟨-, hsome⟩ := List.mem_filter.mp hi
  obtain ⟨o, ho⟩ := Option.isSome_iff_exists.mp hsome
  have hpos := hinv.number_pos ho
  rw [Nat.sub_add_cancel hpos, ho] at hfree
  simp at hfree

/-- A slot that is held is a number in use. -/
theorem Tracked.mem_waiting (h : Tracked l r own) {s v : Nat} (hv : r.held s = some v) :
    s ∈ (inUse l.world).map (· - 1) := by
  have hs : s < numbers := (h.ok s v hv).1 ▸ mod_numbers_lt v
  refine List.mem_map.mpr ⟨s + 1, List.mem_filter.mpr ⟨List.mem_range.mpr ?_, ?_⟩, rfl⟩
  · simp only [numbers, idtable] at *
    omega
  · rw [h.held s hs, hv]
    rfl

theorem Tracked.take (h : Tracked l r own) (hinv : Inv none none w') (ht : Takes l.world w' o) :
    ∃ r' own', Tracked ⟨w', ⟨w'.id, o, l.asks.length + 1, (inUse l.world).length⟩ :: l.asks⟩ r' own' := by
  obtain ⟨hid, htable⟩ := ht
  rw [h.turn] at hid
  obtain ⟨k, -, hk, hfree, hheld⟩ := assignDnsId_eq_some hid
  have hlt := mod_numbers_lt (r.turn + 1 + k)
  have hturn : (r.pass k).turn + 1 = r.turn + 1 + k := by simp; omega
  have hslot : r.held ((r.turn + 1 + k) % numbers) = none := by
    rw [← hk, idAt_eq, h.held _ hlt] at hfree
    simpa using hfree
  have hpassed : ∀ j < k, r.held ((r.turn + 1 + j) % numbers) ≠ none := by
    intro j hj hnone
    apply hheld j hj
    rw [idAt_eq, h.held _ (mod_numbers_lt _), hnone]
    rfl
  have hold : ∀ s v, r.held s = some v → v ≠ r.turn + 1 + k := by
    intro s v hv
    have := (h.ok s v hv).2
    omega
  refine ⟨(r.pass k).take numbers, Function.update own (r.turn + 1 + k) o, hinv, (h.ok.pass k).take, ?_, ?_, ?_⟩
  · rw [Ring.take_turn, hturn, hk]
  · intro s hs
    rw [htable, ← hk, idAt_eq]
    by_cases hsame : s = (r.turn + 1 + k) % numbers
    · subst hsame
      rw [Function.update_self, ← hturn, Ring.take_held_self, Option.map_some, Function.update_self]
    · rw [Function.update_of_ne (by omega), Ring.take_held_of_ne (by rwa [hturn]), Ring.pass_held, h.held s hs,
        map_update (hold s) o]
  · intro a ha
    rcases List.mem_cons.mp ha with rfl | ha
    · refine ⟨Nat.le_refl _, r.turn + 1 + k, (inUse l.world).map (· - 1), hk, Function.update_self .., ?_, ?_, ?_,
        fun _ => ?_⟩
      · show r.turn + 1 + k ≤ (r.pass k).turn + 1
        omega
      · exact not_mem_waiting h.inv (by rw [← idAt_eq, hk]; exact hfree)
      · rw [List.length_map]
      · rw [List.length_cons, Nat.sub_self, ← hturn, ← Ring.take_turn]
        refine Ring.Since.start fun s v hv hlt' => ?_
        by_cases hsame : s = (r.turn + 1 + k) % numbers
        · subst hsame
          rw [← hturn, Ring.take_held_self, Option.some.injEq] at hv
          rw [Ring.take_turn] at hlt'
          omega
        · rw [Ring.take_held_of_ne (by rwa [hturn])] at hv
          exact h.mem_waiting hv
    · obtain ⟨hmade, t, waiting, hnid, hown, hle, hnew, hlen, hsince⟩ := h.asked a ha
      refine ⟨Nat.le_succ_of_le hmade, t, waiting, hnid, ?_, ?_, hnew, hlen, fun hbound => ?_⟩
      · rw [Function.update_of_ne (by omega), hown]
      · rw [Ring.take_turn, hturn]
        omega
      · rw [List.length_cons, Nat.succ_sub hmade] at hbound ⊢
        exact ((hsince (by omega)).pass h.ok hbound k hpassed).take (by rw [Ring.pass_turn]; omega)

theorem Tracked.step (h : Tracked l r own) (hstep : l.step e = some l') : ∃ r' own', Tracked l' r' own' := by
  obtain ⟨w', hw', rfl⟩ := Option.map_eq_some_iff.mp hstep
  have hinv := (h.inv.step e).1 w' hw'
  cases hasks : e.asks l.world with
  | none =>
    obtain ⟨r', hr'⟩ := h.shrink hinv (shrinks_of_asks_none hasks hw')
    exact ⟨r', own, hr'⟩
  | some o => exact h.take hinv (takes_of_asks h.inv hasks hw')

theorem tracked_of_reach (h : Reach Ledger.step anyStep Ledger.start l) : ∃ r own, Tracked l r own :=
  h.invariant (P := fun l => ∃ r own, Tracked l r own) ⟨_, _, tracked_start⟩
    fun _ _ _ ⟨_, _, ht⟩ _ hstep => ht.step hstep

/-- In every run, an answer to a question that is late goes to the one who asked, who still waits, or
    to nobody, as long as those who have asked since and those who were waiting when it was asked
    are fewer than there are numbers. -/
theorem late_answer (h : Reach Ledger.step anyStep Ledger.start l) {a : Ask} (ha : a ∈ l.asks)
    (hlate : l.asks.length - a.made + a.waiting < idtable - 1) :
    l.world.querytable a.nid = none ∨
      l.world.querytable a.nid = some a.owner ∧
        (l.world.reading ≠ some (.results a.nid) → Waits l.world a.nid a.owner) := by
  obtain ⟨r, own, ht⟩ := tracked_of_reach h
  obtain ⟨-, t, waiting, hnid, hown, hle, hnew, hlen, hsince⟩ := ht.asked a ha
  rw [← hlen] at hlate
  have hs := hsince hlate
  have htable : l.world.querytable a.nid = (r.held (t % numbers)).map own := by
    rw [← hnid, idAt_eq, ht.held _ (mod_numbers_lt t)]
  cases hheld : r.held (t % numbers) with
  | none => exact .inl (by rw [htable, hheld]; rfl)
  | some v =>
    -- the slot was free at the turn `t`, so that it is not held since before
    have hge : t ≤ v := by
      by_contra hlt
      exact hnew (hs.older _ v hheld (by omega))
    have hv := hs.held_eq ht.ok hlate hheld hge
    have howner : l.world.querytable a.nid = some a.owner := by rw [htable, hheld, Option.map_some, hv, hown]
    exact .inr ⟨howner, fun hreading => (ht.inv.entry _ _ (by rw [World.awaited, if_neg hreading, howner])).2⟩

/-- The client with the address 1 asks, and exits. -/
theorem late_answer_exit :
    let l := [Event.connect true .dead true 0, .exit 1].foldl (Reach.perform Ledger.step) Ledger.start
    let a : Ask := ⟨2, .auth 2, 1, (inUse World.start).length⟩
    l.world.querytable a.nid = none ∨ l.world.querytable a.nid = some a.owner ∧
      (l.world.reading ≠ some (.results a.nid) → Waits l.world a.nid a.owner) := by
  intro l a
  have hasks : l.asks = [a] := rfl
  have hnone : inUse World.start = [] := by simp [inUse, World.start]
  refine late_answer (Reach.init.performed_all _) (by rw [hasks]; simp) ?_
  rw [hasks]
  simp [a, hnone, idtable]

end Bluebox.Dns
