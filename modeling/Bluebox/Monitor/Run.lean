/-
  Bluebox.Monitor.Run

  Watchers are told the truth in every run: clients come, change their nicks, are renamed by
  services and leave, and in between anyone sends `MONITOR`.

  `Net.Inv` is kept by each event.  Where a nick goes or comes, the view of who is on line
  changes at that nick, and the watchers of that nick are told.
-/
import Bluebox.Monitor.Truth

namespace Bluebox.Monitor

open Bluebox.Lib

-- ============================================================================
-- Nicks come and go
-- ============================================================================

section Events

variable {s : Net} {x : Nat} {nick : Bytes}

theorem Names.rename (h : Names s.client s.clientTable) (hfree : s.free x nick = true) :
    Names (s.rename x nick).client (s.rename x nick).clientTable := by
  obtain ⟨hne, hfree⟩ := Net.free_iff.mp hfree
  refine ⟨?_, ?_, ?_, ?_⟩
  · exact List.nodup_cons.mpr ⟨h.nodup.not_mem_erase, h.nodup.erase x⟩
  · intro y hy z hz hsame
    by_cases hyx : y = x
    · by_cases hzx : z = x
      · rw [hyx, hzx]
      · rw [hyx, Net.rename_client_self, Net.rename_client z hzx, sameNick_comm] at hsame
        have hother := hfree z ((Net.mem_rename z hzx).mp hz) hzx
        exact Bool.noConfusion (hsame.symm.trans hother)
    · by_cases hzx : z = x
      · rw [hzx, Net.rename_client_self, Net.rename_client y hyx] at hsame
        have hother := hfree y ((Net.mem_rename y hyx).mp hy) hyx
        exact Bool.noConfusion (hsame.symm.trans hother)
      · rw [Net.rename_client y hyx, Net.rename_client z hzx] at hsame
        exact h.unique y ((Net.mem_rename y hyx).mp hy) z ((Net.mem_rename z hzx).mp hz) hsame
  · intro y hy
    by_cases hyx : y = x
    · rw [hyx, Net.rename_client_self]
      exact hne
    · rw [Net.rename_client y hyx]
      exact h.named y ((Net.mem_rename y hyx).mp hy)
  · intro y hreg
    by_cases hyx : y = x
    · rw [hyx]
      exact List.mem_cons_self
    · rw [Net.rename_client y hyx] at hreg
      exact (Net.mem_rename y hyx).mpr (h.listed y hreg)

theorem Names.leave (h : Names s.client s.clientTable) :
    Names (s.leave x).client (s.leave x).clientTable := by
  have hne : ∀ y ∈ (s.leave x).clientTable, y ≠ x ∧ y ∈ s.clientTable :=
    fun y hy => h.nodup.mem_erase_iff.mp hy
  refine ⟨h.nodup.erase x, ?_, ?_, ?_⟩
  · intro y hy z hz hsame
    obtain ⟨hyx, hy⟩ := hne y hy
    obtain ⟨hzx, hz⟩ := hne z hz
    rw [Net.leave_client y hyx, Net.leave_client z hzx] at hsame
    exact h.unique y hy z hz hsame
  · intro y hy
    obtain ⟨hyx, hy⟩ := hne y hy
    rw [Net.leave_client y hyx]
    exact h.named y hy
  · intro y hreg
    by_cases hyx : y = x
    · rw [hyx, Net.leave_client_self] at hreg
      cases hreg
    · rw [Net.leave_client y hyx] at hreg
      exact (Net.mem_leave y hyx).mpr (h.listed y hreg)

/-- The watchers of a nick that has come are told. -/
theorem Net.inv_signon {t : Net} {on : Bytes → Bool} (hnames : Names t.client t.clientTable)
    (hlinked : t.Linked) (hwatchers : Watchers t.client t.monitorList) (htells : t.Tells on)
    (honline : t.online = comes (t.client x).name on) : (t.monitorSignon x).Inv := by
  have htells := htells.signon hlinked x
  rw [← honline] at htells
  unfold Net.monitorSignon at htells ⊢
  rw [Net.tellMonitor_eq] at htells ⊢
  exact ⟨hnames, hlinked, hwatchers, htells⟩

theorem Watchers.rename (h : Watchers s.client s.monitorList) (x : Nat) (nick : Bytes) :
    Watchers (s.rename x nick).client (s.rename x nick).monitorList := by
  intro y hy
  by_cases hyx : y = x
  · rw [hyx, Net.rename_client_self]
    rw [hyx] at hy
    exact h x hy
  · rw [Net.rename_client y hyx]
    exact h y hy

/-- A client goes under one nick and comes under another. -/
theorem Net.Inv.move (h : s.Inv) (hreg : (s.client x).registered = true)
    (hfree : s.free x nick = true) :
    (((s.monitorSignoff x).rename x nick).monitorSignon x).Inv := by
  have htells := h.tells.signoff h.linked x
  unfold Net.monitorSignoff at htells ⊢
  rw [Net.tellMonitor_eq] at htells ⊢
  refine Net.inv_signon (h.names.rename hfree) h.linked (h.watchers.rename x nick) htells ?_
  rw [Net.rename_client_self]
  exact h.names.online_rename hreg hfree

theorem Net.Inv.changeNick (h : s.Inv) (hreg : (s.client x).registered = true)
    (hfree : s.free x nick = true) : (s.changeNick x nick).Inv := by
  unfold Net.changeNick
  split
  · rename_i hsame
    refine ⟨h.names.rename hfree, h.linked, h.watchers.rename x nick, ?_⟩
    rw [h.names.online_rename_same hreg hsame]
    exact h.tells
  · exact h.move hreg hfree

theorem Net.Inv.initialNick (h : s.Inv) (hreg : (s.client x).registered = false)
    (hfree : s.free x nick = true) : (s.rename x nick).Inv := by
  refine ⟨h.names.rename hfree, h.linked, h.watchers.rename x nick, ?_⟩
  rw [Net.online_rename_unregistered hreg]
  exact h.tells

/-- The watchers of a nick that goes are told, and the client leaves. -/
theorem Net.Inv.exitClient (h : s.Inv) (x : Nat) : (s.exitClient x).Inv := by
  have hothers : ∀ y, y ≠ x → s.monitorList y ≠ [] →
      ((s.leave x).client y).registered = true ∧ ((s.leave x).client y).myConnect = true := by
    intro y hyx hy
    rw [Net.leave_client y hyx]
    exact h.watchers y hy
  have htells := h.tells.signoff h.linked x
  unfold Net.exitClient
  unfold Net.monitorSignoff at htells ⊢
  rw [Net.tellMonitor_eq] at htells ⊢
  split
  · rename_i hreg
    rw [← h.names.online_leave hreg] at htells
    split
    · exact Net.inv_clearMonitor h.names.leave h.linked htells hothers
    · rename_i hmy
      refine ⟨h.names.leave, h.linked, ?_, htells⟩
      intro y hy
      by_cases hyx : y = x
      · rw [hyx] at hy
        exact absurd (h.watchers x hy).2 hmy
      · exact hothers y hyx hy
  · rename_i hreg
    refine ⟨h.names.leave, h.linked, ?_, ?_⟩
    · intro y hy
      by_cases hyx : y = x
      · rw [hyx] at hy
        exact absurd (h.watchers x hy).1 hreg
      · exact hothers y hyx hy
    · rw [Net.online_leave_unregistered (Bool.eq_false_iff.mpr hreg)]
      exact h.tells

/-- After an exit the others are what they were. -/
theorem Net.Inv.exitClient_same (h : s.Inv) (x : Nat) :
    (s.exitClient x).client = (s.leave x).client ∧
      (s.exitClient x).clientTable = (s.leave x).clientTable := by
  unfold Net.exitClient Net.monitorSignoff
  rw [Net.tellMonitor_eq]
  split
  · split
    · have hfold := Net.foldl_unwatch x (s.monitorList x) (h.linked.listNodup x)
      show (((s.monitorList x).foldl (Net.unwatch x) _).setMonitorList x []).client = _ ∧
        (((s.monitorList x).foldl (Net.unwatch x) _).setMonitorList x []).clientTable = _
      rw [hfold]
      exact ⟨rfl, rfl⟩
    · exact ⟨rfl, rfl⟩
  · exact ⟨rfl, rfl⟩

theorem Net.Inv.forceNick (h : s.Inv) (hreg : (s.client x).registered = true) (hne : nick ≠ []) :
    (s.forceNick x nick).Inv := by
  unfold Net.forceNick
  cases hf : s.findNamedClient nick with
  | none =>
    refine h.move hreg (Net.free_iff.mpr ⟨hne, ?_⟩)
    unfold Net.findNamedClient at hf
    rw [if_neg hne] at hf
    intro y hy _
    have hnot := List.find?_eq_none.mp hf y hy
    rw [sameNick_comm]
    exact Bool.eq_false_iff.mpr hnot
  | some y =>
    dsimp only
    split
    · exact h
    · rename_i hyx
      obtain ⟨hclient, htable⟩ := h.exitClient_same y
      unfold Net.findNamedClient at hf
      rw [if_neg hne] at hf
      have hsame := List.find?_some hf
      have hy := List.mem_of_find?_eq_some hf
      refine (h.exitClient y).move ?_ (Net.free_iff.mpr ⟨hne, ?_⟩)
      · rw [hclient, Net.leave_client x (Ne.symm hyx)]
        exact hreg
      · -- only the client that left had the nick
        intro z hz _
        rw [htable] at hz
        obtain ⟨hzy, hz⟩ := h.names.nodup.mem_erase_iff.mp hz
        rw [hclient, Net.leave_client z hzy, Bool.eq_false_iff]
        exact fun hz' => hzy (h.names.unique z hz y hy (sameNick_trans hz' hsame))

theorem Net.modify_client_self (f : Client → Client) : (s.modify x f).client x = f (s.client x) :=
  Function.update_self _ _ _

theorem Net.modify_client (f : Client → Client) (y : Nat) (hne : y ≠ x) :
    (s.modify x f).client y = s.client y :=
  Function.update_of_ne hne _ _

/-- A client with an empty list may change. -/
theorem Net.Inv.watchers_of_unregistered {client : Nat → Client} (h : s.Inv)
    (hreg : (s.client x).registered = false) (hclient : ∀ y, y ≠ x → client y = s.client y) :
    Watchers client s.monitorList := by
  intro y hy
  by_cases hyx : y = x
  · rw [hyx] at hy
    exact Bool.noConfusion (hreg.symm.trans (h.watchers x hy).1)
  · rw [hclient y hyx]
    exact h.watchers y hy

/-- A client that was in the table of names registers. -/
theorem Net.Inv.registerLocalUser (h : s.Inv) (hx : x ∈ s.clientTable)
    (hreg : (s.client x).registered = false) (username host : Bytes) :
    (s.registerLocalUser x username host).Inv := by
  unfold Net.registerLocalUser
  generalize hf : (fun c : Client =>
    { c with username := username, host := host, registered := true }) = f
  have hname : ∀ y, ((s.modify x f).client y).name = (s.client y).name := by
    intro y
    by_cases hyx : y = x
    · rw [hyx, Net.modify_client_self, ← hf]
    · rw [Net.modify_client f y hyx]
  refine Net.inv_signon ⟨h.names.nodup, ?_, ?_, ?_⟩ h.linked
    (h.watchers_of_unregistered hreg (Net.modify_client f)) h.tells ?_
  · intro y hy z hz hsame
    rw [hname, hname] at hsame
    exact h.names.unique y hy z hz hsame
  · intro y hy
    rw [hname]
    exact h.names.named y hy
  · intro y hy
    by_cases hyx : y = x
    · rw [hyx]
      exact hx
    · rw [Net.modify_client f y hyx] at hy
      exact h.names.listed y hy
  · funext m
    have hother : (s.modify x f).OtherOnline x m ↔ s.OtherOnline x m :=
      Net.otherOnline_congr (fun y _ => Iff.rfl) (Net.modify_client f)
    have hnow : ((s.modify x f).client x).registered = true := by
      rw [Net.modify_client_self, ← hf]
    have hmem : x ∈ (s.modify x f).clientTable := hx
    rw [Bool.eq_iff_iff, Net.online_split x, comes_iff, Net.online_split x, hother, hname, hreg]
    simp [hmem, hnow]

/-- The state with a user of another server, before anyone is told. -/
theorem Net.Inv.registerClient (h : s.Inv) (hx : x ∉ s.clientTable) (hfree : s.free x nick = true)
    (username host : Bytes) : (s.registerClient x nick username host).Inv := by
  have hreg : (s.client x).registered = false :=
    Bool.eq_false_iff.mpr fun hreg => hx (h.names.listed x hreg)
  obtain ⟨hne, hfree⟩ := Net.free_iff.mp hfree
  unfold Net.registerClient
  generalize ht : ({ s with
    client := Function.update s.client x ⟨nick, username, host, true, false⟩
    clientTable := x :: s.clientTable } : Net) = t
  have hself : t.client x = ⟨nick, username, host, true, false⟩ := by
    rw [← ht]
    exact Function.update_self _ _ _
  have hclient : ∀ y, y ≠ x → t.client y = s.client y := by
    intro y hyx
    rw [← ht]
    exact Function.update_of_ne hyx _ _
  have hmem : ∀ y, y ∈ t.clientTable ↔ y = x ∨ y ∈ s.clientTable := by
    intro y
    rw [← ht]
    exact List.mem_cons
  have hold : ∀ y ∈ t.clientTable, y ≠ x → y ∈ s.clientTable :=
    fun y hy hyx => ((hmem y).mp hy).resolve_left hyx
  have htable : t.clientTable = x :: s.clientTable := by
    rw [← ht]
  have hlinked : t.Linked := by
    rw [← ht]
    exact h.linked
  have hlist : t.monitorList = s.monitorList := by
    rw [← ht]
  have htells : t.Tells s.online := by
    rw [← ht]
    exact h.tells
  refine Net.inv_signon ⟨?_, ?_, ?_, ?_⟩ hlinked ?_ htells ?_
  · rw [htable]
    exact List.nodup_cons.mpr ⟨hx, h.names.nodup⟩
  · intro y hy z hz hsame
    by_cases hyx : y = x
    · by_cases hzx : z = x
      · rw [hyx, hzx]
      · rw [hyx, hself, hclient z hzx, sameNick_comm, hfree z (hold z hz hzx) hzx] at hsame
        cases hsame
    · by_cases hzx : z = x
      · rw [hzx, hself, hclient y hyx, hfree y (hold y hy hyx) hyx] at hsame
        cases hsame
      · rw [hclient y hyx, hclient z hzx] at hsame
        exact h.names.unique y (hold y hy hyx) z (hold z hz hzx) hsame
  · intro y hy
    by_cases hyx : y = x
    · rw [hyx, hself]
      exact hne
    · rw [hclient y hyx]
      exact h.names.named y (hold y hy hyx)
  · intro y hy
    rw [hmem]
    by_cases hyx : y = x
    · exact Or.inl hyx
    · rw [hclient y hyx] at hy
      exact Or.inr (h.names.listed y hy)
  · rw [hlist]
    exact h.watchers_of_unregistered hreg hclient
  · funext m
    have hother : t.OtherOnline x m ↔ s.OtherOnline x m :=
      Net.otherOnline_congr (fun y hyx => by rw [hmem, or_iff_right hyx]) hclient
    have hin : x ∈ t.clientTable := (hmem x).mpr (Or.inl rfl)
    rw [Bool.eq_iff_iff, Net.online_split x, comes_iff, Net.online_split x, hother, hself, hreg]
    simp [hin]

theorem Net.Inv.connect (h : s.Inv) (hx : x ∉ s.clientTable) : (s.connect x).Inv := by
  have hreg : (s.client x).registered = false :=
    Bool.eq_false_iff.mpr fun hreg => hx (h.names.listed x hreg)
  have hself : (s.connect x).client x = ⟨[], [], [], false, true⟩ := Net.modify_client_self _
  have hclient : ∀ y, y ≠ x → (s.connect x).client y = s.client y := Net.modify_client _
  have hin : ∀ y ∈ s.clientTable, (s.connect x).client y = s.client y := by
    intro y hy
    refine hclient y ?_
    rintro rfl
    exact hx hy
  refine ⟨⟨h.names.nodup, ?_, ?_, ?_⟩, h.linked, h.watchers_of_unregistered hreg hclient, ?_⟩
  · intro y hy z hz hsame
    rw [hin y hy, hin z hz] at hsame
    exact h.names.unique y hy z hz hsame
  · intro y hy
    rw [hin y hy]
    exact h.names.named y hy
  · intro y hy
    by_cases hyx : y = x
    · rw [hyx, hself] at hy
      cases hy
    · rw [hclient y hyx] at hy
      exact h.names.listed y hy
  · have honline : (s.connect x).online = s.online := by
      funext m
      have hother : (s.connect x).OtherOnline x m ↔ s.OtherOnline x m :=
        Net.otherOnline_congr (fun y _ => Iff.rfl) hclient
      rw [Bool.eq_iff_iff, Net.online_split x, Net.online_split x, hself, hother, hreg]
      simp
    rw [honline]
    exact h.tells

/-- Every event keeps the invariant. -/
theorem Net.Inv.step {t : Net} {a : Event} (h : s.Inv) (hs : s.step a = some t) : t.Inv := by
  cases a with
  | connect x =>
    simp only [Net.step] at hs
    split at hs
    · cases hs
    · rename_i hx
      exact Option.some.inj hs ▸ h.connect hx
  | initialNick x nick =>
    simp only [Net.step] at hs
    split at hs
    · rename_i hguard
      simp only [Bool.and_eq_true, Bool.not_eq_true'] at hguard
      exact Option.some.inj hs ▸ h.initialNick hguard.1.2 hguard.2
    · cases hs
  | register x username host =>
    simp only [Net.step] at hs
    split at hs
    · rename_i hguard
      simp only [Bool.and_eq_true, Bool.not_eq_true', List.contains_iff_mem] at hguard
      exact Option.some.inj hs ▸ h.registerLocalUser hguard.2 hguard.1.2 username host
    · cases hs
  | introduce x nick username host =>
    simp only [Net.step] at hs
    split at hs
    · rename_i hguard
      simp only [Bool.and_eq_true, Bool.not_eq_true', ← Bool.not_eq_true, List.contains_iff_mem] at hguard
      exact Option.some.inj hs ▸ h.registerClient hguard.1 hguard.2 username host
    · cases hs
  | nick x nick =>
    simp only [Net.step] at hs
    split at hs
    · rename_i hguard
      rw [Bool.and_eq_true] at hguard
      exact Option.some.inj hs ▸ h.changeNick hguard.1 hguard.2
    · cases hs
  | rsfnc x nick =>
    simp only [Net.step] at hs
    split at hs
    · rename_i hguard
      simp only [Bool.and_eq_true, bne_iff_ne] at hguard
      exact Option.some.inj hs ▸ h.forceNick hguard.1.1 hguard.2
    · cases hs
  | exit x => exact Option.some.inj hs ▸ h.exitClient x
  | monitor x command nicks =>
    simp only [Net.step] at hs
    split at hs
    · rename_i hguard
      rw [Bool.and_eq_true] at hguard
      exact Option.some.inj hs ▸ h.mMonitor hguard command nicks
    · cases hs
  | cleanup => exact Option.some.inj hs ▸ h.cleanupMonitor

theorem Net.inv_start (me : Bytes) (maxMonitor : Nat) : (Net.start me maxMonitor).Inv where
  names := ⟨List.nodup_nil, nofun, nofun, nofun⟩
  linked := ⟨nofun, nofun, fun _ => List.nodup_nil, nofun, nofun,
    fun _ _ => iff_of_false List.not_mem_nil fun h => List.not_mem_nil h.1,
    fun _ => List.nodup_nil, fun _ => List.nodup_nil⟩
  watchers := fun _ h => absurd rfl h
  tells := nofun

end Events

-- ============================================================================
-- Whole runs
-- ============================================================================

/-- In every run, an entry is on the list of a client iff the client is on its list, each
    once, entries on a list are in their chains, no two of these are for one nick, and what
    a watcher was last told about a nick is so. -/
theorem monitor_tells_the_truth {me : Bytes} {maxMonitor : Nat} {s : Net}
    (h : Reach Net.step anyStep (Net.start me maxMonitor) s) :
    (∀ x e, s.Live e → (e ∈ s.monitorList x ↔ x ∈ s.users e)) ∧
    (∀ x, (s.monitorList x).Nodup ∧ ∀ e ∈ s.monitorList x, s.Live e) ∧
    (∀ e, (s.users e).Nodup) ∧
    (∀ e f, s.Live e → s.Live f → sameNick (s.entryName e) (s.entryName f) = true → e = f) ∧
    ∀ x, ∀ e ∈ s.monitorList x, ∃ b, told s.sent x (s.entryName e) = some b ∧
      (b = true ↔ ∃ y, (s.client y).registered = true ∧
        sameNick (s.client y).name (s.entryName e) = true) := by
  have hinv := h.invariant (P := Net.Inv) (Net.inv_start me maxMonitor) fun _ _ _ h _ hs => h.step hs
  refine ⟨?_, ?_, hinv.linked.usersNodup, hinv.linked.distinct, ?_⟩
  · intro x e he
    rw [hinv.linked.mem_iff]
    exact and_iff_right he
  · exact fun x => ⟨hinv.linked.listNodup x, fun e he => ((hinv.linked.mem_iff x e).mp he).1⟩
  · intro x e he
    obtain ⟨hlive, hx⟩ := (hinv.linked.mem_iff x e).mp he
    refine ⟨_, hinv.tells e x hlive hx, ?_⟩
    rw [Net.online_iff]
    constructor
    · rintro ⟨y, -, hy⟩
      exact ⟨y, hy⟩
    · rintro ⟨y, hreg, hsame⟩
      exact ⟨y, hinv.names.listed y hreg, hreg, hsame⟩

/-- A client watches `b` and `c`; `B` registers, `C` is introduced, and `B` becomes `d`. -/
def watchedRun : List Event :=
  [.connect 0, .initialNick 0 [97], .register 0 [117] [104], .monitor 0 43 (some [98, 44, 99]),
    .connect 1, .initialNick 1 [66], .register 1 [117] [104], .introduce 2 [67] [117] [104],
    .nick 1 [100], .cleanup]

theorem monitor_tells_watchedRun :
    ((watchedRun.foldl (Reach.perform Net.step) (Net.start [105] 10)).monitorList 0 = [1, 0] ∧
      told (watchedRun.foldl (Reach.perform Net.step) (Net.start [105] 10)).sent 0 [98] =
        some false) ∧
    ∃ b, told (watchedRun.foldl (Reach.perform Net.step) (Net.start [105] 10)).sent 0 [99] =
        some b ∧
      (b = true ↔ ∃ y,
        ((watchedRun.foldl (Reach.perform Net.step) (Net.start [105] 10)).client y).registered =
          true ∧
        sameNick ((watchedRun.foldl (Reach.perform Net.step) (Net.start [105] 10)).client y).name
          [99] = true) := by
  have hlist : (watchedRun.foldl (Reach.perform Net.step) (Net.start [105] 10)).monitorList 0 =
      [1, 0] := by decide +kernel
  have hname : (watchedRun.foldl (Reach.perform Net.step) (Net.start [105] 10)).entryName 1 =
      [99] := by decide +kernel
  have htruth := (monitor_tells_the_truth (Reach.performed_all watchedRun .init)).2.2.2.2 0 1
    (by rw [hlist]; exact List.mem_cons_self)
  rw [hname] at htruth
  exact ⟨⟨hlist, by decide +kernel⟩, htruth⟩

end Bluebox.Monitor
