/-
  Bluebox.Monitor.Truth

  What a watcher was last told about a nick is so.

  `Net.Tells` says that what each watcher was told last agrees with a view of who is on
  line.  A nick that goes and a nick that comes each change the view at one nick and tell
  the watchers of that nick, which is `Net.Tells.tellMonitor`; a change of nick is one after
  the other.  While a command fills its lines, what the client was not told yet is on one of
  them, which is `Filling`.
-/
import Bluebox.Lib.Reach
import Bluebox.Monitor.Linked

namespace Bluebox.Monitor

open Bluebox.Lib

-- ============================================================================
-- What was told
-- ============================================================================

/-- What a line says about a nick. -/
def said (nick : Bytes) : Line → Option Bool
  | .online who => if who.any fun p => sameNick p.1 nick then some true else none
  | .offline nicks => if nicks.any fun n => sameNick n nick then some false else none
  | _ => none

/-- What the last line to a client that is about a nick says. -/
def told (sent : List (Nat × Line)) (w : Nat) (nick : Bytes) : Option Bool :=
  sent.reverse.findSome? fun p => if p.1 = w then said nick p.2 else none

theorem told_append (sent more : List (Nat × Line)) (w : Nat) (nick : Bytes) :
    told (sent ++ more) w nick = (told more w nick).or (told sent w nick) := by
  unfold told
  rw [List.reverse_append, List.findSome?_append]

theorem told_self (line : Line) (w : Nat) (nick : Bytes) :
    told [(w, line)] w nick = said nick line := by
  simp [told]

theorem told_of_ne (line : Line) {u w : Nat} (h : u ≠ w) (nick : Bytes) :
    told [(u, line)] w nick = none := by
  simp [told, h]

/-- A line to some clients is told to them. -/
theorem told_map (line : Line) (w : Nat) (nick : Bytes) (us : List Nat) :
    told (us.map fun u => (u, line)) w nick = if w ∈ us then said nick line else none := by
  induction us with
  | nil => rfl
  | cons u us ih =>
    rw [List.map_cons, ← List.singleton_append, told_append, ih]
    by_cases hu : u = w
    · subst hu
      rw [told_self, if_pos List.mem_cons_self]
      split
      · cases said nick line <;> rfl
      · rfl
    · rw [told_of_ne line hu, Option.or_none]
      have hmem : w ∈ u :: us ↔ w ∈ us := by
        rw [List.mem_cons, or_iff_right (Ne.symm hu)]
      simp only [hmem]

theorem said_online {nick : Bytes} {who : List (Bytes × Bytes × Bytes)} {b : Bool}
    (h : said nick (.online who) = some b) : b = true ∧ ∃ p ∈ who, sameNick p.1 nick = true := by
  simp only [said] at h
  split at h
  · rename_i hany
    exact ⟨(Option.some.inj h).symm, List.any_eq_true.mp hany⟩
  · cases h

theorem said_offline {nick : Bytes} {nicks : List Bytes} {b : Bool}
    (h : said nick (.offline nicks) = some b) : b = false ∧ ∃ n ∈ nicks, sameNick n nick = true := by
  simp only [said] at h
  split at h
  · rename_i hany
    exact ⟨(Option.some.inj h).symm, List.any_eq_true.mp hany⟩
  · cases h

-- ============================================================================
-- Telling
-- ============================================================================

/-- What each watcher was told last about a nick agrees with a view of who is on line. -/
def Net.Tells (s : Net) (on : Bytes → Bool) : Prop :=
  ∀ e w, s.Live e → w ∈ s.users e → told s.sent w (s.entryName e) = some (on (s.entryName e))

section Tells

variable {s : Net} {x : Nat} {name : Bytes} {on on₂ : Bytes → Bool} {line : Line}

/-- Who watches a nick. -/
def Net.watchers (s : Net) (name : Bytes) : List Nat := (s.findMonitor name).elim [] s.users

theorem Net.tellMonitor_eq (s : Net) (name : Bytes) (line : Line) :
    s.tellMonitor name line =
      { s with sent := s.sent ++ (s.watchers name).map fun u => (u, line) } := by
  unfold Net.tellMonitor Net.watchers
  cases s.findMonitor name with
  | none => simp
  | some e => rfl

/-- A nick comes or goes, and its watchers are told. -/
theorem Net.Tells.tellMonitor (h : s.Tells on) (hlinked : s.Linked) {b : Bool}
    (hsame : ∀ m, sameNick name m = true → said m line = some b ∧ on₂ m = b)
    (hother : ∀ m, sameNick name m = false → said m line = none ∧ on₂ m = on m) :
    (s.tellMonitor name line).Tells on₂ := by
  rw [Net.tellMonitor_eq]
  intro e w hlive hw
  show told (s.sent ++ _) w (s.entryName e) = some (on₂ (s.entryName e))
  rw [told_append, told_map]
  cases hsn : sameNick name (s.entryName e) with
  | true =>
    have hfind : s.findMonitor name = some e := by
      rw [sameNick_comm] at hsn
      exact hlinked.findMonitor_of_live hlive hsn
    have hin : w ∈ s.watchers name := by
      unfold Net.watchers
      rw [hfind]
      exact hw
    rw [if_pos hin, (hsame _ hsn).1, (hsame _ hsn).2, Option.some_or]
  | false =>
    rw [(hother _ hsn).1, (hother _ hsn).2, ite_self, Option.none_or]
    exact h e w hlive hw

theorem Net.Tells.signon (h : s.Tells on) (hlinked : s.Linked) (x : Nat) :
    (s.monitorSignon x).Tells (comes (s.client x).name on) := by
  unfold Net.monitorSignon
  refine h.tellMonitor hlinked (b := true) ?_ ?_
  · intro m hm
    simp [said, comes, hm]
  · intro m hm
    simp [said, comes, hm]

theorem Net.Tells.signoff (h : s.Tells on) (hlinked : s.Linked) (x : Nat) :
    (s.monitorSignoff x).Tells (goes (s.client x).name on) := by
  unfold Net.monitorSignoff
  refine h.tellMonitor hlinked (b := false) ?_ ?_
  · intro m hm
    simp [said, goes, hm]
  · intro m hm
    simp [said, goes, hm]

/-- Whoever stops watching needs to be told nothing. -/
theorem Net.Tells.shrink {t : Net} (h : s.Tells on) (hsent : t.sent = s.sent)
    (hname : t.entryName = s.entryName)
    (hsub : ∀ e w, t.Live e → w ∈ t.users e → s.Live e ∧ w ∈ s.users e) : t.Tells on := by
  intro e w hlive hw
  obtain ⟨hlive, hw⟩ := hsub e w hlive hw
  rw [hsent, hname]
  exact h e w hlive hw

end Tells

-- ============================================================================
-- The invariant
-- ============================================================================

/-- Only clients of this server watch. -/
def Watchers (client : Nat → Client) (monitorList : Nat → List Nat) : Prop :=
  ∀ x, monitorList x ≠ [] → (client x).registered = true ∧ (client x).myConnect = true

/-- The inductive invariant. -/
structure Net.Inv (s : Net) : Prop where
  names : Names s.client s.clientTable
  linked : s.Linked
  watchers : Watchers s.client s.monitorList
  tells : s.Tells s.online

-- ============================================================================
-- Two lines that are filled
-- ============================================================================

/-- The nick is on one of the lines. -/
def Buffers.Has (b : Buffers) (m : Bytes) : Prop :=
  (∃ p ∈ b.onbuf, sameNick p.1 m = true) ∨ ∃ n ∈ b.offbuf, sameNick n m = true

/-- The lines say what is so, and a line that looks empty is. -/
structure Buffers.Honest (b : Buffers) (on : Bytes → Bool) (mlen : Nat) : Prop where
  onTrue : ∀ p ∈ b.onbuf, on p.1 = true
  offTrue : ∀ n ∈ b.offbuf, on n = false
  onlen : mlen ≤ b.onlen
  offlen : mlen ≤ b.offlen
  onEmpty : b.onlen = mlen → b.onbuf = []
  offEmpty : b.offlen = mlen → b.offbuf = []

/-- In the middle of a command of a client: what it has not been told is on one of the two
    lines or still to be put there. -/
structure Filling (s : Net) (x mlen : Nat) (b : Buffers) (todo : Bytes → Prop) : Prop where
  names : Names s.client s.clientTable
  linked : s.Linked
  watchers : Watchers s.client s.monitorList
  user : (s.client x).registered = true ∧ (s.client x).myConnect = true
  honest : b.Honest s.online mlen
  tells : ∀ e w, s.Live e → w ∈ s.users e →
    told s.sent w (s.entryName e) = some (s.online (s.entryName e)) ∨
      w = x ∧ (b.Has (s.entryName e) ∨ todo (s.entryName e))

/-- Nothing is left to be put on a line. -/
def nothing (_ : Bytes) : Prop := False

/-- A nick is left to be put on a line. -/
def only (nick m : Bytes) : Prop := sameNick nick m = true

section Filling

variable {s : Net} {x mlen : Nat} {b : Buffers} {todo : Bytes → Prop} {nick : Bytes}

/-- A line to the client, and what it says leaves the buffers. -/
theorem Filling.sent (h : Filling s x mlen b todo) {line : Line} {b' : Buffers}
    (hhonest : b'.Honest s.online mlen)
    (htrue : ∀ m v, said m line = some v → v = s.online m)
    (hhas : ∀ m, b.Has m → said m line ≠ none ∨ b'.Has m) :
    Filling (s.send x line) x mlen b' todo where
  names := h.names
  linked := h.linked
  watchers := h.watchers
  user := h.user
  honest := hhonest
  tells := by
    intro e w hlive hw
    show told (s.sent ++ [(x, line)]) w (s.entryName e) = some (s.online (s.entryName e)) ∨
      w = x ∧ (b'.Has (s.entryName e) ∨ todo (s.entryName e))
    rw [told_append]
    by_cases hwx : x = w
    · subst hwx
      rw [told_self]
      cases hsaid : said (s.entryName e) line with
      | some v =>
        rw [htrue _ v hsaid]
        exact Or.inl rfl
      | none =>
        obtain htold | ⟨hx, hin | htodo⟩ := h.tells e x hlive hw
        · exact Or.inl htold
        · obtain hsaid' | hin := hhas _ hin
          · exact absurd hsaid hsaid'
          · exact Or.inr ⟨hx, Or.inl hin⟩
        · exact Or.inr ⟨hx, Or.inr htodo⟩
    · rw [told_of_ne line hwx, Option.none_or]
      obtain htold | ⟨hx, -⟩ := h.tells e w hlive hw
      · exact Or.inl htold
      · exact absurd hx.symm hwx

/-- The line of nicks that are on. -/
theorem Filling.sendOn (h : Filling s x mlen b todo) :
    Filling (s.send x (.online b.onbuf)) x mlen { b with onbuf := [], onlen := mlen } todo := by
  refine h.sent ?_ ?_ ?_
  · exact { h.honest with
      onTrue := nofun
      onlen := Nat.le_refl _
      onEmpty := fun _ => rfl }
  · intro m v hsaid
    obtain ⟨rfl, p, hp, hsame⟩ := said_online hsaid
    rw [← Net.online_congr hsame]
    exact (h.honest.onTrue p hp).symm
  · rintro m (⟨p, hp, hsame⟩ | hoff)
    · left
      simp only [said]
      rw [if_pos (List.any_eq_true.mpr ⟨p, hp, hsame⟩)]
      exact Option.some_ne_none _
    · exact Or.inr (Or.inr hoff)

/-- The line of nicks that are off. -/
theorem Filling.sendOff (h : Filling s x mlen b todo) :
    Filling (s.send x (.offline b.offbuf)) x mlen { b with offbuf := [], offlen := mlen } todo := by
  refine h.sent ?_ ?_ ?_
  · exact { h.honest with
      offTrue := nofun
      offlen := Nat.le_refl _
      offEmpty := fun _ => rfl }
  · intro m v hsaid
    obtain ⟨rfl, n, hn, hsame⟩ := said_offline hsaid
    rw [← Net.online_congr hsame]
    exact (h.honest.offTrue n hn).symm
  · rintro m (hon | ⟨n, hn, hsame⟩)
    · exact Or.inr (Or.inl hon)
    · left
      simp only [said]
      rw [if_pos (List.any_eq_true.mpr ⟨n, hn, hsame⟩)]
      exact Option.some_ne_none _

/-- More of what is left to be said is on the lines. -/
theorem Filling.refill (h : Filling s x mlen b todo) {b' : Buffers} {todo' : Bytes → Prop}
    (hhonest : b'.Honest s.online mlen) (hhas : ∀ m, b.Has m → b'.Has m)
    (htodo : ∀ m, todo m → b'.Has m ∨ todo' m) : Filling s x mlen b' todo' where
  names := h.names
  linked := h.linked
  watchers := h.watchers
  user := h.user
  honest := hhonest
  tells := by
    intro e w hlive hw
    obtain htold | ⟨hx, hin | ht⟩ := h.tells e w hlive hw
    · exact Or.inl htold
    · exact Or.inr ⟨hx, Or.inl (hhas _ hin)⟩
    · exact Or.inr ⟨hx, htodo _ ht⟩

/-- A nick goes on the line of nicks that are on. -/
theorem Filling.addOn (h : Filling s x mlen b (only nick)) {who : Bytes × Bytes × Bytes} {len : Nat}
    (hsame : sameNick who.1 nick = true) (hon : s.online who.1 = true) (hlen : mlen < len) :
    Filling s x mlen { b with onbuf := b.onbuf ++ [who], onlen := len } nothing := by
  have hhonest := h.honest
  refine h.refill { hhonest with onTrue := ?_, onlen := Nat.le_of_lt hlen, onEmpty := ?_ } ?_ ?_
  · intro p hp
    obtain hp | hp := List.mem_append.mp hp
    · exact hhonest.onTrue p hp
    · rw [List.mem_singleton.mp hp]
      exact hon
  · intro heq
    exact absurd heq (Nat.ne_of_gt hlen)
  · rintro m (⟨p, hp, hm⟩ | hoff)
    · exact Or.inl ⟨p, List.mem_append_left _ hp, hm⟩
    · exact Or.inr hoff
  · intro m hm
    exact Or.inl (Or.inl ⟨who, List.mem_append_right _ (List.mem_singleton_self who),
      sameNick_trans hsame hm⟩)

/-- A nick goes on the line of nicks that are off. -/
theorem Filling.addOff (h : Filling s x mlen b (only nick)) {len : Nat}
    (hoff : s.online nick = false) (hlen : mlen < len) :
    Filling s x mlen { b with offbuf := b.offbuf ++ [nick], offlen := len } nothing := by
  have hhonest := h.honest
  refine h.refill { hhonest with offTrue := ?_, offlen := Nat.le_of_lt hlen, offEmpty := ?_ } ?_ ?_
  · intro n hn
    obtain hn | hn := List.mem_append.mp hn
    · exact hhonest.offTrue n hn
    · rw [List.mem_singleton.mp hn]
      exact hoff
  · intro heq
    exact absurd heq (Nat.ne_of_gt hlen)
  · rintro m (hon | ⟨n, hn, hm⟩)
    · exact Or.inl hon
    · exact Or.inr ⟨n, List.mem_append_left _ hn, hm⟩
  · intro m hm
    exact Or.inl (Or.inr ⟨nick, List.mem_append_right _ (List.mem_singleton_self nick), hm⟩)

theorem Filling.putOn (h : Filling s x mlen b (only nick)) {who : Bytes × Bytes × Bytes}
    (hsame : sameNick who.1 nick = true) (hon : s.online who.1 = true) :
    Filling (putOn x mlen s b who).1 x mlen (putOn x mlen s b who).2 nothing := by
  unfold Monitor.putOn
  dsimp only
  split
  · refine h.sendOn.addOn hsame hon ?_
    omega
  · refine h.addOn hsame hon ?_
    have := h.honest.onlen
    split <;> omega

theorem Filling.putOff (h : Filling s x mlen b (only nick)) (hoff : s.online nick = false)
    (hne : nick ≠ []) : Filling (putOff x mlen s b nick).1 x mlen (putOff x mlen s b nick).2 nothing := by
  have hpos := List.length_pos_of_ne_nil hne
  unfold Monitor.putOff
  split
  · refine h.sendOff.addOff hoff ?_
    omega
  · refine h.addOff hoff ?_
    have := h.honest.offlen
    split <;> omega

theorem Filling.putStatus (h : Filling s x mlen b (only nick)) (hne : nick ≠ []) :
    Filling (putStatus x mlen s b nick).1 x mlen (putStatus x mlen s b nick).2 nothing := by
  unfold Monitor.putStatus
  cases hf : s.findNamedPerson nick with
  | some y =>
    obtain ⟨hy, hreg, hsame⟩ := Net.online_of_findNamedPerson hf
    exact h.putOn hsame (Net.online_iff.mpr ⟨y, hy, hreg, sameNick_refl _⟩)
  | none => exact h.putOff (h.names.findNamedPerson_none hf) hne

/-- When both lines are sent, all is told. -/
theorem Filling.flush (h : Filling s x mlen b nothing) :
    (flushOff x mlen (flushOn x mlen s b) b).Inv := by
  have hon : Filling (flushOn x mlen s b) x mlen { b with onbuf := [], onlen := mlen } nothing := by
    unfold flushOn
    split
    · exact h.sendOn
    · rename_i hlen
      have hempty := h.honest.onEmpty (not_not.mp hlen)
      refine h.refill { h.honest with
        onTrue := nofun, onlen := Nat.le_refl _, onEmpty := fun _ => rfl } ?_ fun m => Or.inr
      rintro m (⟨p, hp, -⟩ | hoff)
      · rw [hempty] at hp
        cases hp
      · exact Or.inr hoff
  have hoff : Filling (flushOff x mlen (flushOn x mlen s b) b) x mlen ⟨[], mlen, [], mlen⟩
      nothing := by
    unfold flushOff
    split
    · exact hon.sendOff
    · rename_i hlen
      have hempty := h.honest.offEmpty (not_not.mp hlen)
      have hlen := not_not.mp hlen
      rw [hempty, hlen] at hon
      exact hon
  refine ⟨hoff.names, hoff.linked, hoff.watchers, ?_⟩
  intro e w hlive hw
  obtain htold | ⟨-, (⟨p, hp, -⟩ | ⟨n, hn, -⟩) | htodo⟩ := hoff.tells e w hlive hw
  · exact htold
  · cases hp
  · cases hn
  · exact htodo.elim

/-- A command starts with empty lines. -/
theorem Net.Inv.filling (h : s.Inv)
    (huser : (s.client x).registered = true ∧ (s.client x).myConnect = true) (mlen : Nat) :
    Filling s x mlen (Buffers.start mlen) nothing where
  names := h.names
  linked := h.linked
  watchers := h.watchers
  user := huser
  honest := ⟨nofun, nofun, Nat.le_refl _, Nat.le_refl _, fun _ => rfl, fun _ => rfl⟩
  tells := fun e w hlive hw => Or.inl (h.tells e w hlive hw)

-- ============================================================================
-- Commands
-- ============================================================================

/-- An entry for the nick is there, or is made. -/
theorem Filling.findMonitorAdd (h : Filling s x mlen b todo) (hlen : nick.length < nickLen)
    (hne : nick ≠ []) :
    Filling (s.findMonitorAdd nick).1 x mlen b todo ∧
      (s.findMonitorAdd nick).1.Live (s.findMonitorAdd nick).2 ∧
      sameNick nick ((s.findMonitorAdd nick).1.entryName (s.findMonitorAdd nick).2) = true := by
  unfold Net.findMonitorAdd
  cases hf : s.findMonitor nick with
  | some e =>
    obtain ⟨hlive, hsame⟩ := h.linked.of_findMonitor hf
    rw [sameNick_comm] at hsame
    exact ⟨h, hlive, hsame⟩
  | none =>
    have hold : ∀ e, s.Live e → (s.newEntry nick).entryName e = s.entryName e ∧
        (s.newEntry nick).users e = s.users e := fun e he =>
      ⟨Function.update_of_ne (h.linked.ne_next he) _ _, Function.update_of_ne (h.linked.ne_next he) _ _⟩
    have hname : (s.newEntry nick).entryName s.nextEntry = nick :=
      (Function.update_self _ _ _).trans (strlcpy_of_lt hlen)
    refine ⟨?_, (Net.live_newEntry hlen).mpr (Or.inr rfl), ?_⟩
    · refine ⟨h.names, h.linked.newEntry hlen hne hf, h.watchers, h.user, h.honest, ?_⟩
      intro e w hlive hw
      obtain hlive | rfl := (Net.live_newEntry hlen).mp hlive
      · rw [(hold e hlive).2] at hw
        rw [(hold e hlive).1]
        exact h.tells e w hlive hw
      · have hnil : (s.newEntry nick).users s.nextEntry = [] := Function.update_self _ _ _
        rw [hnil] at hw
        cases hw
    · dsimp only
      rw [hname]
      exact sameNick_refl nick

/-- A new watcher is still to be told. -/
theorem Filling.watch (h : Filling s x mlen b nothing) {e : Nat} (hlive : s.Live e)
    (hsame : sameNick nick (s.entryName e) = true) (hx : x ∉ s.users e) :
    Filling (s.watch x e) x mlen b (only nick) where
  names := h.names
  linked := h.linked.watch hlive hx
  watchers := by
    intro y hy
    by_cases hyx : y = x
    · subst hyx
      exact h.user
    · refine h.watchers y ?_
      have hsame : (s.watch x e).monitorList y = s.monitorList y := Function.update_of_ne hyx _ _
      rw [← hsame]
      exact hy
  user := h.user
  honest := h.honest
  tells := by
    intro f w hf hw
    obtain ⟨rfl, rfl⟩ | hw := Net.mem_users_watch.mp hw
    · exact Or.inr ⟨rfl, Or.inr hsame⟩
    · obtain htold | ⟨hwx, hin | htodo⟩ := h.tells f w hf hw
      · exact Or.inl htold
      · exact Or.inr ⟨hwx, Or.inl hin⟩
      · exact htodo.elim

/-- A line that says nothing about nicks. -/
theorem Net.Inv.send (h : s.Inv) {line : Line} (hsaid : ∀ m, said m line = none) :
    (s.send x line).Inv := by
  refine ⟨h.names, h.linked, h.watchers, ?_⟩
  intro e w hlive hw
  show told (s.sent ++ [(x, line)]) w (s.entryName e) = _
  have hnone : told [(x, line)] w (s.entryName e) = none := by
    by_cases hxw : x = w
    · subst hxw
      rw [told_self, hsaid]
    · exact told_of_ne line hxw _
  rw [told_append, hnone, Option.none_or]
  exact h.tells e w hlive hw

/-- By induction on the names that are left. -/
theorem Filling.addMonitorLoop (l : List (Bytes × Bytes)) (hl : ∀ t ∈ l, t.1 ≠ []) :
    ∀ {s : Net} {b : Buffers}, Filling s x mlen b nothing →
      (addMonitorLoop x mlen s b l).Inv := by
  induction l with
  | nil =>
    intro s b h
    exact h.flush
  | cons t l ih =>
    intro s b h
    obtain ⟨name, rest⟩ := t
    have hne : name ≠ [] := hl (name, rest) List.mem_cons_self
    have hrest : ∀ t ∈ l, t.1 ≠ [] := fun t ht => hl t (List.mem_cons_of_mem _ ht)
    rw [Monitor.addMonitorLoop]
    split
    · exact ih hrest h
    · rename_i hlen
      split
      · exact h.flush.send fun m => rfl
      · have hlt : name.length < nickLen := by
          have hpos := List.length_pos_of_ne_nil hne
          omega
        obtain ⟨hadd, hlive, hsame⟩ := h.findMonitorAdd hlt hne
        split
        · exact ih hrest hadd
        · rename_i hx
          exact ih hrest ((hadd.watch hlive hsame hx).putStatus hne)

theorem nextToken_ne_nil {t name rest : Bytes} (h : nextToken t = some (name, rest)) : name ≠ [] := by
  unfold nextToken at h
  split at h
  · cases h
  · rename_i hne
    obtain ⟨c, l, hl⟩ := List.exists_cons_of_ne_nil hne
    have hc : (c == 44) = false := by
      have := List.head?_dropWhile_not (fun c : UInt8 => c == 44) t
      rw [hl] at this
      exact this
    obtain ⟨rfl, -⟩ := Prod.mk.inj (Option.some.inj h)
    rw [hl, List.takeWhile_cons, if_pos (by simpa using hc)]
    exact List.cons_ne_nil _ _

theorem tokens_ne_nil (n : Nat) : ∀ (t : Bytes), ∀ p ∈ tokens n t, p.1 ≠ [] := by
  induction n with
  | zero => exact fun t p hp => absurd hp List.not_mem_nil
  | succ n ih =>
    intro t p hp
    rw [tokens] at hp
    split at hp
    · cases hp
    · rename_i name rest hnext
      obtain rfl | hp := List.mem_cons.mp hp
      · exact nextToken_ne_nil hnext
      · exact ih rest p hp

theorem Filling.statusLoop (l : List Bytes) (hl : ∀ n ∈ l, n ≠ []) :
    ∀ {s : Net} {b : Buffers}, Filling s x mlen b nothing → (statusLoop x mlen s b l).Inv := by
  induction l with
  | nil =>
    intro s b h
    exact h.flush
  | cons n l ih =>
    intro s b h
    have hnick : Filling s x mlen b (only n) :=
      h.refill h.honest (fun _ hin => hin) (fun _ hn => hn.elim)
    rw [Monitor.statusLoop]
    exact ih (fun n hn => hl n (List.mem_cons_of_mem _ hn)) (hnick.putStatus (hl n List.mem_cons_self))

theorem Net.Inv.listLoop (l : List Bytes) :
    ∀ {s : Net} (buf : List Bytes) (len : Nat), s.Inv → (listLoop x mlen s buf len l).Inv := by
  induction l with
  | nil =>
    intro s buf len h
    exact h.send fun m => rfl
  | cons n l ih =>
    intro s buf len h
    rw [Monitor.listLoop]
    split
    · exact ih _ _ (h.send fun m => rfl)
    · exact ih _ _ h

/-- Watchers leave. -/
theorem Net.inv_of_shrink {t : Net} (hnames : Names s.client s.clientTable)
    (htells : s.Tells s.online) (hclient : t.client = s.client)
    (htable : t.clientTable = s.clientTable) (hsent : t.sent = s.sent)
    (hname : t.entryName = s.entryName) (hlinked : t.Linked)
    (hwatchers : Watchers s.client t.monitorList)
    (hsub : ∀ e w, t.Live e → w ∈ t.users e → s.Live e ∧ w ∈ s.users e) : t.Inv := by
  refine ⟨?_, hlinked, ?_, ?_⟩
  · rw [hclient, htable]
    exact hnames
  · rw [hclient]
    exact hwatchers
  · have honline : t.online = s.online := by
      unfold Net.online
      rw [hclient, htable]
    rw [honline]
    exact htells.shrink hsent hname hsub

theorem Net.Inv.delName (h : s.Inv) (x : Nat) (name : Bytes) : (s.delName x name).Inv := by
  unfold Net.delName
  cases s.findMonitor name with
  | none => exact h
  | some e =>
    refine Net.inv_of_shrink h.names h.tells rfl rfl rfl rfl h.linked.drop ?_ ?_
    · intro y hy
      refine h.watchers y fun hnil => hy ?_
      by_cases hyx : y = x
      · subst hyx
        refine (Function.update_self _ _ _).trans ?_
        rw [hnil]
        rfl
      · exact (Function.update_of_ne hyx _ _).trans hnil
    · intro f w hf hw
      exact ⟨hf, ((Net.mem_users_unwatch h.linked).mp hw).1⟩

theorem Net.Inv.delNames (l : List Bytes) : ∀ {s : Net}, s.Inv → (l.foldl (Net.delName x) s).Inv := by
  induction l with
  | nil => exact fun h => h
  | cons n l ih => exact fun h => ih (h.delName x n)

/-- A client that may have left already gives up its list. -/
theorem Net.inv_clearMonitor (hnames : Names s.client s.clientTable) (hlinked : s.Linked)
    (htells : s.Tells s.online)
    (hwatchers : ∀ y, y ≠ x → s.monitorList y ≠ [] →
      (s.client y).registered = true ∧ (s.client y).myConnect = true) : (s.clearMonitor x).Inv := by
  have hlinked' := hlinked.clearMonitor x
  unfold Net.clearMonitor at hlinked' ⊢
  rw [Net.foldl_unwatch x _ (hlinked.listNodup x)] at hlinked' ⊢
  refine Net.inv_of_shrink hnames htells rfl rfl rfl rfl hlinked' ?_ ?_
  · intro y hy
    by_cases hyx : y = x
    · subst hyx
      exact absurd (Function.update_self _ _ _) hy
    · refine hwatchers y hyx fun hnil => hy ?_
      exact (Function.update_of_ne hyx _ _).trans hnil
  · intro f w hf hw
    refine ⟨hf, ?_⟩
    replace hw : w ∈ if f ∈ s.monitorList x then (s.users f).erase x else s.users f := hw
    split at hw
    · exact List.mem_of_mem_erase hw
    · exact hw

theorem Net.Inv.cleanupMonitor (h : s.Inv) : s.cleanupMonitor.Inv :=
  Net.inv_of_shrink h.names h.tells rfl rfl rfl rfl h.linked.cleanupMonitor h.watchers
    fun _ _ hf hw => ⟨(Net.live_cleanup.mp hf).1, hw⟩

/-- `MONITOR` keeps the invariant. -/
theorem Net.Inv.mMonitor (h : s.Inv)
    (huser : (s.client x).registered = true ∧ (s.client x).myConnect = true) (command : UInt8)
    (nicks : Option Bytes) : (s.mMonitor x command nicks).Inv := by
  have hneed : (s.send x .needMoreParams).Inv := h.send fun m => rfl
  unfold Net.mMonitor
  split
  · split
    · exact hneed
    · split
      · exact hneed
      · exact Filling.addMonitorLoop _ (tokens_ne_nil _ _) (h.filling huser _)
  split
  · split
    · exact hneed
    · split
      · exact hneed
      · unfold Net.delMonitor
        split
        · exact h
        · exact Net.Inv.delNames _ h
  split
  · exact Net.inv_clearMonitor h.names h.linked h.tells fun y _ => h.watchers y
  split
  · unfold Net.listMonitor
    split
    · exact h.send fun m => rfl
    · exact (Net.Inv.listLoop _ _ _ h).send fun m => rfl
  split
  · refine Filling.statusLoop _ ?_ (h.filling huser _)
    intro n hn
    obtain ⟨e, he, rfl⟩ := List.mem_map.mp hn
    exact h.linked.named e ((h.linked.mem_iff x e).mp he).1
  · exact h

end Filling

end Bluebox.Monitor
