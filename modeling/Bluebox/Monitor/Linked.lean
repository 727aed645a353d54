/-
  Bluebox.Monitor.Linked

  The table of names, and the lists of entries and their users.

  `Names` is about the table of names: with unique names, what happens at a client changes
  who is on line at the nicks of that client only.  `Linked` is about entries: chains hold
  what belongs there, no two entries are for one nick, and both kinds of lists agree.
-/
import Mathlib.Data.List.Basic
import Mathlib.Data.List.Nodup
import Bluebox.Monitor.Basic

namespace Bluebox.Monitor

open Bluebox.Lib

-- ============================================================================
-- The table of names
-- ============================================================================

/-- Names are unique and not empty, and clients are found under theirs. -/
structure Names (client : Nat → Client) (clientTable : List Nat) : Prop where
  nodup : clientTable.Nodup
  unique : ∀ x ∈ clientTable, ∀ y ∈ clientTable,
    sameNick (client x).name (client y).name = true → x = y
  named : ∀ x ∈ clientTable, (client x).name ≠ []
  listed : ∀ x, (client x).registered = true → x ∈ clientTable

/-- There is a client with this nick. -/
def Net.online (s : Net) (nick : Bytes) : Bool :=
  s.clientTable.any fun x => (s.client x).registered && sameNick (s.client x).name nick

section Online

variable {s : Net} {x : Nat} {nick m : Bytes}

theorem Net.online_iff : s.online m = true ↔
    ∃ x ∈ s.clientTable, (s.client x).registered = true ∧ sameNick (s.client x).name m = true := by
  simp only [Net.online, List.any_eq_true, Bool.and_eq_true]

theorem Net.online_congr (h : sameNick m nick = true) : s.online m = s.online nick := by
  unfold Net.online
  simp only [fun x => sameNick_comm (s.client x).name, sameNick_congr h]

/-- A client that is not registered is not on line. -/
theorem Net.online_of_findNamedPerson {y : Nat} (h : s.findNamedPerson nick = some y) :
    y ∈ s.clientTable ∧ (s.client y).registered = true ∧
      sameNick (s.client y).name nick = true := by
  obtain ⟨hfind, hreg⟩ := Option.filter_eq_some_iff.mp h
  unfold Net.findNamedClient at hfind
  split at hfind
  · cases hfind
  · have hsame := List.find?_some hfind
    rw [sameNick_comm] at hsame
    exact ⟨List.mem_of_find?_eq_some hfind, hreg, hsame⟩

/-- With unique names the first client that is found is the only one. -/
theorem Names.findNamedPerson_none (h : Names s.client s.clientTable)
    (hnone : s.findNamedPerson nick = none) : s.online nick = false := by
  rw [Bool.eq_false_iff]
  intro hon
  obtain ⟨x, hx, hreg, hsame⟩ := Net.online_iff.mp hon
  have hne : nick ≠ [] := by
    rintro rfl
    rw [sameNick_iff, List.map_nil, List.map_eq_nil_iff] at hsame
    exact h.named x hx hsame
  have hfind : s.findNamedClient nick = some x := by
    unfold Net.findNamedClient
    rw [if_neg hne]
    cases hf : s.clientTable.find? fun x => sameNick nick (s.client x).name with
    | none =>
      have := List.find?_eq_none.mp hf x hx
      rw [sameNick_comm] at this
      exact absurd hsame this
    | some y =>
      have hy := List.find?_some hf
      exact congrArg some
        (h.unique y (List.mem_of_find?_eq_some hf) x hx (by
          rw [sameNick_comm]
          exact sameNick_trans hsame hy))
  unfold Net.findNamedPerson at hnone
  rw [hfind, Option.filter_some, if_pos hreg] at hnone
  cases hnone


/-- Another client has this nick. -/
def Net.OtherOnline (s : Net) (x : Nat) (m : Bytes) : Prop :=
  ∃ y ∈ s.clientTable, y ≠ x ∧ (s.client y).registered = true ∧ sameNick (s.client y).name m = true

theorem Net.online_split (x : Nat) : s.online m = true ↔
    (x ∈ s.clientTable ∧ (s.client x).registered = true ∧ sameNick (s.client x).name m = true) ∨
      s.OtherOnline x m := by
  rw [Net.online_iff]
  constructor
  · rintro ⟨y, hy, hreg, hsame⟩
    by_cases hyx : y = x
    · subst hyx
      exact Or.inl ⟨hy, hreg, hsame⟩
    · exact Or.inr ⟨y, hy, hyx, hreg, hsame⟩
  · rintro (h | ⟨y, hy, -, h⟩)
    · exact ⟨x, h⟩
    · exact ⟨y, hy, h⟩

/-- What happens at a client does not change the others. -/
theorem Net.otherOnline_congr {t : Net} (htable : ∀ y, y ≠ x → (y ∈ t.clientTable ↔ y ∈ s.clientTable))
    (hclient : ∀ y, y ≠ x → t.client y = s.client y) : t.OtherOnline x m ↔ s.OtherOnline x m := by
  constructor
  · rintro ⟨y, hy, hne, h⟩
    rw [hclient y hne] at h
    exact ⟨y, (htable y hne).mp hy, hne, h⟩
  · rintro ⟨y, hy, hne, h⟩
    rw [← hclient y hne] at h
    exact ⟨y, (htable y hne).mpr hy, hne, h⟩

theorem Names.not_otherOnline (h : Names s.client s.clientTable) (hx : x ∈ s.clientTable)
    (hsame : sameNick (s.client x).name m = true) : ¬ s.OtherOnline x m := by
  rintro ⟨y, hy, hne, -, hy'⟩
  rw [sameNick_comm] at hsame
  exact hne (h.unique y hy x hx (by rw [sameNick_comm] at hsame ⊢; rw [sameNick_comm] at hy'; exact sameNick_trans hsame hy'))

theorem Net.free_iff : s.free x nick = true ↔
    nick ≠ [] ∧ ∀ y ∈ s.clientTable, y ≠ x → sameNick (s.client y).name nick = false := by
  unfold Net.free
  rw [Bool.and_eq_true, List.all_eq_true, bne_iff_ne]
  refine and_congr_right fun _ => forall₂_congr fun y _ => ?_
  rw [Bool.or_eq_true, beq_iff_eq, Bool.not_eq_true', or_iff_not_imp_left]

theorem Net.not_otherOnline_of_free (h : s.free x nick = true) (hsame : sameNick nick m = true) :
    ¬ s.OtherOnline x m := by
  rintro ⟨y, hy, hne, -, hy'⟩
  have hfree := (Net.free_iff.mp h).2 y hy hne
  rw [sameNick_comm] at hsame
  rw [sameNick_trans hy' hsame] at hfree
  cases hfree

/-- A view of who is on line, less a nick. -/
def goes (nick : Bytes) (on : Bytes → Bool) (m : Bytes) : Bool := on m && !sameNick nick m

/-- A view of who is on line, with a nick. -/
def comes (nick : Bytes) (on : Bytes → Bool) (m : Bytes) : Bool := sameNick nick m || on m

theorem goes_iff {on : Bytes → Bool} :
    goes nick on m = true ↔ on m = true ∧ ¬ sameNick nick m = true := by
  unfold goes
  rw [Bool.and_eq_true, Bool.not_eq_true', Bool.not_eq_true]

theorem comes_iff {on : Bytes → Bool} :
    comes nick on m = true ↔ sameNick nick m = true ∨ on m = true := by
  unfold comes
  rw [Bool.or_eq_true]

-- Each change is at one client: the others are what they were, and names are unique.

theorem Net.rename_client (y : Nat) (hne : y ≠ x) : (s.rename x nick).client y = s.client y :=
  Function.update_of_ne hne _ _

theorem Net.rename_client_self : (s.rename x nick).client x = (s.client x).setName nick :=
  Function.update_self x _ _

theorem Net.mem_rename (y : Nat) (hne : y ≠ x) :
    y ∈ (s.rename x nick).clientTable ↔ y ∈ s.clientTable := by
  show y ∈ x :: s.clientTable.erase x ↔ _
  rw [List.mem_cons, or_iff_right hne, List.mem_erase_of_ne hne]

theorem Net.leave_client (y : Nat) (hne : y ≠ x) : (s.leave x).client y = s.client y :=
  Function.update_of_ne hne _ _

theorem Net.leave_client_self : (s.leave x).client x = (s.client x).gone :=
  Function.update_self x _ _

theorem Net.mem_leave (y : Nat) (hne : y ≠ x) :
    y ∈ (s.leave x).clientTable ↔ y ∈ s.clientTable :=
  List.mem_erase_of_ne hne

theorem Net.otherOnline_rename : (s.rename x nick).OtherOnline x m ↔ s.OtherOnline x m :=
  Net.otherOnline_congr Net.mem_rename Net.rename_client

theorem Names.online_rename (h : Names s.client s.clientTable) (hreg : (s.client x).registered = true)
    (hfree : s.free x nick = true) :
    (s.rename x nick).online = comes nick (goes (s.client x).name s.online) := by
  funext m
  have hx := h.listed x hreg
  have hother : (s.rename x nick).OtherOnline x m ↔ s.OtherOnline x m := Net.otherOnline_rename
  rw [Bool.eq_iff_iff, Net.online_split x, hother, Net.rename_client_self, comes_iff, goes_iff,
    Net.online_split x]
  show (_ ∧ (s.client x).registered = true ∧ sameNick nick m = true) ∨ _ ↔ _
  have hold := fun hs => h.not_otherOnline (m := m) hx hs
  have hnew := fun hs => Net.not_otherOnline_of_free (m := m) hfree hs
  have hmem : x ∈ (s.rename x nick).clientTable := List.mem_cons_self
  tauto

theorem Names.online_rename_same (h : Names s.client s.clientTable)
    (hreg : (s.client x).registered = true) (hsame : sameNick (s.client x).name nick = true) :
    (s.rename x nick).online = s.online := by
  funext m
  have hx := h.listed x hreg
  have hother : (s.rename x nick).OtherOnline x m ↔ s.OtherOnline x m := Net.otherOnline_rename
  rw [Bool.eq_iff_iff, Net.online_split x, hother, Net.rename_client_self, Net.online_split x,
    sameNick_congr hsame m]
  show (_ ∧ (s.client x).registered = true ∧ sameNick nick m = true) ∨ _ ↔ _
  have hmem : x ∈ (s.rename x nick).clientTable := List.mem_cons_self
  tauto

theorem Net.online_rename_unregistered (hreg : (s.client x).registered = false) :
    (s.rename x nick).online = s.online := by
  funext m
  have hother : (s.rename x nick).OtherOnline x m ↔ s.OtherOnline x m := Net.otherOnline_rename
  rw [Bool.eq_iff_iff, Net.online_split x, hother, Net.rename_client_self, Net.online_split x, hreg]
  show (_ ∧ (s.client x).registered = true ∧ _) ∨ _ ↔ _
  rw [hreg]
  simp

theorem Names.online_leave (h : Names s.client s.clientTable)
    (hreg : (s.client x).registered = true) :
    (s.leave x).online = goes (s.client x).name s.online := by
  funext m
  have hx := h.listed x hreg
  have hother := Net.otherOnline_congr (m := m) (s := s) (Net.mem_leave (x := x)) Net.leave_client
  rw [Bool.eq_iff_iff, Net.online_split x, hother, Net.leave_client_self, goes_iff,
    Net.online_split x]
  show (_ ∧ false = true ∧ _) ∨ _ ↔ _
  have hold := fun hs => h.not_otherOnline (m := m) hx hs
  have hnot : ¬ (false = true) := Bool.false_ne_true
  tauto

theorem Net.online_leave_unregistered (hreg : (s.client x).registered = false) :
    (s.leave x).online = s.online := by
  funext m
  have hother := Net.otherOnline_congr (m := m) (s := s) (Net.mem_leave (x := x)) Net.leave_client
  rw [Bool.eq_iff_iff, Net.online_split x, hother, Net.leave_client_self, Net.online_split x, hreg]
  show (_ ∧ false = true ∧ _) ∨ _ ↔ _
  simp

end Online

-- ============================================================================
-- Entries and lists
-- ============================================================================

/-- The entry is in its chain. -/
def Live (entryName : Nat → Bytes) (monitorTable : Nat → List Nat) (e : Nat) : Prop :=
  e ∈ monitorTable (hashMonitorNick (entryName e))

/-- Chains hold what belongs there, no two entries are for one nick, and the lists of
    clients and of entries agree. -/
structure Linked (entryName : Nat → Bytes) (monitorTable : Nat → List Nat) (nextEntry : Nat)
    (users monitorList : Nat → List Nat) : Prop where
  chain : ∀ h, ∀ e ∈ monitorTable h, hashMonitorNick (entryName e) = h
  old : ∀ h, ∀ e ∈ monitorTable h, e < nextEntry
  chainNodup : ∀ h, (monitorTable h).Nodup
  named : ∀ e, Live entryName monitorTable e → entryName e ≠ []
  distinct : ∀ e f, Live entryName monitorTable e → Live entryName monitorTable f →
    sameNick (entryName e) (entryName f) = true → e = f
  mem_iff : ∀ x e, e ∈ monitorList x ↔ Live entryName monitorTable e ∧ x ∈ users e
  listNodup : ∀ x, (monitorList x).Nodup
  usersNodup : ∀ e, (users e).Nodup

/-- `Linked` in a state. -/
abbrev Net.Linked (s : Net) : Prop :=
  Monitor.Linked s.entryName s.monitorTable s.nextEntry s.users s.monitorList

/-- `Live` in a state. -/
abbrev Net.Live (s : Net) (e : Nat) : Prop := Monitor.Live s.entryName s.monitorTable e

section Linked

variable {s : Net} {x e : Nat} {name : Bytes}

theorem Linked.of_findMonitor (h : s.Linked) (hf : s.findMonitor name = some e) :
    s.Live e ∧ sameNick (s.entryName e) name = true := by
  have hmem := List.mem_of_find?_eq_some hf
  have hlive : s.Live e := by
    unfold Net.Live Monitor.Live
    rw [h.chain _ e hmem]
    exact hmem
  have hsame := List.find?_some hf
  exact ⟨hlive, hsame⟩

theorem Linked.findMonitor_of_live (h : s.Linked) (hlive : s.Live e)
    (hsame : sameNick (s.entryName e) name = true) : s.findMonitor name = some e := by
  cases hf : s.findMonitor name with
  | none =>
    have hmem : e ∈ s.monitorTable (hashMonitorNick name) := by
      rw [← hashMonitorNick_congr hsame]
      exact hlive
    exact absurd hsame (List.find?_eq_none.mp hf e hmem)
  | some f =>
    obtain ⟨hf', hsame'⟩ := h.of_findMonitor hf
    rw [sameNick_comm] at hsame
    rw [h.distinct f e hf' hlive (sameNick_trans hsame' hsame)]

/-- An entry in a chain has an address below the next one. -/
theorem Linked.ne_next (h : s.Linked) (hlive : s.Live e) : e ≠ s.nextEntry :=
  Nat.ne_of_lt (h.old _ e hlive)

theorem Net.live_newEntry (hlen : name.length < nickLen) :
    Monitor.Live (s.newEntry name).entryName (s.newEntry name).monitorTable e ↔ s.Live e ∨ e = s.nextEntry := by
  unfold Net.newEntry Monitor.Live
  dsimp only
  rw [strlcpy_of_lt hlen]
  by_cases he : e = s.nextEntry
  · subst he
    rw [Function.update_self, Function.update_self]
    exact iff_of_true List.mem_cons_self (Or.inr rfl)
  · rw [Function.update_of_ne he, or_iff_left he]
    by_cases hh : hashMonitorNick (s.entryName e) = hashMonitorNick name
    · rw [hh, Function.update_self, List.mem_cons, or_iff_right he, ← hh]
      exact Iff.rfl
    · rw [Function.update_of_ne hh]
      exact Iff.rfl

theorem Linked.newEntry (h : s.Linked) (hlen : name.length < nickLen) (hne : name ≠ [])
    (hf : s.findMonitor name = none) : (s.newEntry name).Linked := by
  have hname : (s.newEntry name).entryName s.nextEntry = name :=
    (Function.update_self _ _ _).trans (strlcpy_of_lt hlen)
  have hold : ∀ f, f ≠ s.nextEntry → (s.newEntry name).entryName f = s.entryName f :=
    fun f hf => Function.update_of_ne hf _ _
  have hmem : ∀ i, ∀ f ∈ (s.newEntry name).monitorTable i,
      (f = s.nextEntry ∧ i = hashMonitorNick name) ∨ f ∈ s.monitorTable i := by
    intro i f hf
    unfold Net.newEntry at hf
    dsimp only at hf
    by_cases hi : i = hashMonitorNick name
    · rw [hi, Function.update_self] at hf
      obtain rfl | hf := List.mem_cons.mp hf
      · exact Or.inl ⟨rfl, hi⟩
      · rw [hi]
        exact Or.inr hf
    · rw [Function.update_of_ne hi] at hf
      exact Or.inr hf
  have hfresh : ∀ f, s.Live f → sameNick (s.entryName f) name = false := by
    intro f hlive
    rw [Bool.eq_false_iff]
    intro hsame
    rw [h.findMonitor_of_live hlive hsame] at hf
    cases hf
  refine
    { chain := ?_
      old := ?_
      chainNodup := ?_
      named := ?_
      distinct := ?_
      mem_iff := ?_
      listNodup := h.listNodup
      usersNodup := ?_ }
  · intro i f hf
    obtain ⟨rfl, rfl⟩ | hf := hmem i f hf
    · rw [hname]
    · rw [hold f (Nat.ne_of_lt (h.old i f hf))]
      exact h.chain i f hf
  · intro i f hf
    obtain ⟨rfl, -⟩ | hf := hmem i f hf
    · exact Nat.lt_succ_self _
    · exact Nat.lt_succ_of_lt (h.old i f hf)
  · intro i
    show (Function.update s.monitorTable _ _ i).Nodup
    by_cases hi : i = hashMonitorNick name
    · subst hi
      rw [Function.update_self]
      exact List.nodup_cons.mpr ⟨fun hin => Nat.lt_irrefl _ (h.old _ _ hin), h.chainNodup _⟩
    · rw [Function.update_of_ne hi]
      exact h.chainNodup i
  · intro f hf
    obtain hf | rfl := (Net.live_newEntry hlen).mp hf
    · rw [hold f (h.ne_next hf)]
      exact h.named f hf
    · rw [hname]
      exact hne
  · intro f g hf hg hsame
    obtain hf | rfl := (Net.live_newEntry hlen).mp hf
    · obtain hg | rfl := (Net.live_newEntry hlen).mp hg
      · rw [hold f (h.ne_next hf), hold g (h.ne_next hg)] at hsame
        exact h.distinct f g hf hg hsame
      · rw [hold f (h.ne_next hf), hname, hfresh f hf] at hsame
        cases hsame
    · obtain hg | rfl := (Net.live_newEntry hlen).mp hg
      · rw [hold g (h.ne_next hg), hname, sameNick_comm, hfresh g hg] at hsame
        cases hsame
      · rfl
  · intro y f
    rw [Net.live_newEntry hlen]
    show f ∈ s.monitorList y ↔ _ ∧ y ∈ Function.update s.users s.nextEntry [] f
    by_cases hf : f = s.nextEntry
    · subst hf
      rw [Function.update_self, h.mem_iff]
      exact iff_of_false (fun hin => h.ne_next hin.1 rfl) (fun hin => List.not_mem_nil hin.2)
    · rw [Function.update_of_ne hf, or_iff_left hf, h.mem_iff]
  · intro f
    show (Function.update s.users s.nextEntry [] f).Nodup
    by_cases hf : f = s.nextEntry
    · subst hf
      rw [Function.update_self]
      exact List.nodup_nil
    · rw [Function.update_of_ne hf]
      exact h.usersNodup f

theorem Net.mem_users_watch {y f : Nat} :
    y ∈ (s.watch x e).users f ↔ (f = e ∧ y = x) ∨ y ∈ s.users f := by
  show y ∈ Function.update s.users e _ f ↔ _
  by_cases hf : f = e
  · subst hf
    rw [Function.update_self, List.mem_cons]
    simp
  · rw [Function.update_of_ne hf]
    simp [hf]

theorem Net.mem_monitorList_watch {y f : Nat} :
    f ∈ (s.watch x e).monitorList y ↔ (f = e ∧ y = x) ∨ f ∈ s.monitorList y := by
  show f ∈ Function.update s.monitorList x _ y ↔ _
  by_cases hy : y = x
  · subst hy
    rw [Function.update_self, List.mem_cons]
    simp
  · rw [Function.update_of_ne hy]
    simp [hy]

theorem Linked.watch (h : s.Linked) (hlive : s.Live e) (hx : x ∉ s.users e) :
    (s.watch x e).Linked := by
  have hnot : e ∉ s.monitorList x := fun hin => hx ((h.mem_iff x e).mp hin).2
  refine { h with mem_iff := ?_, listNodup := ?_, usersNodup := ?_ }
  · intro y f
    rw [Net.mem_monitorList_watch, Net.mem_users_watch, h.mem_iff]
    constructor
    · rintro (⟨rfl, rfl⟩ | ⟨hf, hy⟩)
      · exact ⟨hlive, Or.inl ⟨rfl, rfl⟩⟩
      · exact ⟨hf, Or.inr hy⟩
    · rintro ⟨hf, h | hy⟩
      · exact Or.inl h
      · exact Or.inr ⟨hf, hy⟩
  · intro y
    show (Function.update s.monitorList x _ y).Nodup
    by_cases hy : y = x
    · subst hy
      rw [Function.update_self]
      exact List.nodup_cons.mpr ⟨hnot, h.listNodup y⟩
    · rw [Function.update_of_ne hy]
      exact h.listNodup y
  · intro f
    show (Function.update s.users e _ f).Nodup
    by_cases hf : f = e
    · subst hf
      rw [Function.update_self]
      exact List.nodup_cons.mpr ⟨hx, h.usersNodup f⟩
    · rw [Function.update_of_ne hf]
      exact h.usersNodup f

theorem Net.mem_users_unwatch (h : s.Linked) {y f : Nat} :
    y ∈ (s.unwatch x e).users f ↔ y ∈ s.users f ∧ ¬ (f = e ∧ y = x) := by
  show y ∈ Function.update s.users e _ f ↔ _
  by_cases hf : f = e
  · subst hf
    rw [Function.update_self, (h.usersNodup f).mem_erase_iff, and_comm]
    simp
  · rw [Function.update_of_ne hf]
    simp [hf]

/-- A client and an entry leave each other's lists. -/
theorem Linked.drop (h : s.Linked) :
    ((s.unwatch x e).setMonitorList x ((s.monitorList x).erase e)).Linked := by
  refine { h with mem_iff := ?_, listNodup := ?_, usersNodup := ?_ }
  · intro y f
    have hlist : f ∈ Function.update s.monitorList x ((s.monitorList x).erase e) y ↔
        f ∈ s.monitorList y ∧ ¬ (f = e ∧ y = x) := by
      by_cases hy : y = x
      · subst hy
        rw [Function.update_self, (h.listNodup y).mem_erase_iff, and_comm]
        simp
      · rw [Function.update_of_ne hy]
        simp [hy]
    refine hlist.trans ?_
    rw [h.mem_iff, and_assoc]
    exact and_congr_right fun _ => (Net.mem_users_unwatch h).symm
  · intro y
    show (Function.update s.monitorList x _ y).Nodup
    by_cases hy : y = x
    · subst hy
      rw [Function.update_self]
      exact (h.listNodup y).erase e
    · rw [Function.update_of_ne hy]
      exact h.listNodup y
  · intro f
    show (Function.update s.users e _ f).Nodup
    by_cases hf : f = e
    · subst hf
      rw [Function.update_self]
      exact (h.usersNodup f).erase x
    · rw [Function.update_of_ne hf]
      exact h.usersNodup f

/-- A client leaves the lists of some entries. -/
theorem Net.foldl_unwatch (x : Nat) (l : List Nat) (hl : l.Nodup) : ∀ s : Net,
    l.foldl (Net.unwatch x) s =
      { s with users := fun f => if f ∈ l then (s.users f).erase x else s.users f } := by
  induction l with
  | nil =>
    intro s
    simp
  | cons e l ih =>
    intro s
    obtain ⟨he, hl⟩ := List.nodup_cons.mp hl
    rw [List.foldl_cons, ih hl]
    unfold Net.unwatch
    congr 1
    funext f
    dsimp only
    by_cases hf : f = e
    · subst hf
      rw [if_neg he, if_pos List.mem_cons_self, Function.update_self]
    · rw [Function.update_of_ne hf]
      simp [hf]

theorem Linked.clearMonitor (h : s.Linked) (x : Nat) : (s.clearMonitor x).Linked := by
  unfold Net.clearMonitor
  rw [Net.foldl_unwatch x _ (h.listNodup x)]
  refine { h with mem_iff := ?_, listNodup := ?_, usersNodup := ?_ }
  · intro y f
    show f ∈ Function.update s.monitorList x [] y ↔
      s.Live f ∧ y ∈ if f ∈ s.monitorList x then (s.users f).erase x else s.users f
    by_cases hy : y = x
    · subst hy
      rw [Function.update_self]
      refine iff_of_false List.not_mem_nil ?_
      rintro ⟨hlive, hin⟩
      split at hin
      · exact (h.usersNodup f).not_mem_erase hin
      · rename_i hnot
        exact hnot ((h.mem_iff y f).mpr ⟨hlive, hin⟩)
    · rw [Function.update_of_ne hy, h.mem_iff]
      split
      · rw [List.mem_erase_of_ne hy]
      · rfl
  · intro y
    show (Function.update s.monitorList x [] y).Nodup
    by_cases hy : y = x
    · subst hy
      rw [Function.update_self]
      exact List.nodup_nil
    · rw [Function.update_of_ne hy]
      exact h.listNodup y
  · intro f
    show (if f ∈ s.monitorList x then (s.users f).erase x else s.users f).Nodup
    split
    · exact (h.usersNodup f).erase x
    · exact h.usersNodup f

theorem Net.live_cleanup :
    Monitor.Live s.cleanupMonitor.entryName s.cleanupMonitor.monitorTable e ↔
      s.Live e ∧ s.users e ≠ [] := by
  unfold Net.cleanupMonitor Net.Live Monitor.Live
  rw [List.mem_filter, bne_iff_ne]

theorem Linked.cleanupMonitor (h : s.Linked) : s.cleanupMonitor.Linked where
  chain := fun i f hf => h.chain i f (List.mem_filter.mp hf).1
  old := fun i f hf => h.old i f (List.mem_filter.mp hf).1
  chainNodup := fun i => (h.chainNodup i).filter _
  named := fun f hf => h.named f (Net.live_cleanup.mp hf).1
  distinct := fun f g hf hg => h.distinct f g (Net.live_cleanup.mp hf).1 (Net.live_cleanup.mp hg).1
  mem_iff := by
    intro y f
    rw [Net.live_cleanup]
    show f ∈ s.monitorList y ↔ _ ∧ y ∈ s.users f
    rw [h.mem_iff]
    constructor
    · rintro ⟨hlive, hy⟩
      exact ⟨⟨hlive, List.ne_nil_of_mem hy⟩, hy⟩
    · rintro ⟨⟨hlive, -⟩, hy⟩
      exact ⟨hlive, hy⟩
  listNodup := h.listNodup
  usersNodup := h.usersNodup

end Linked

end Bluebox.Monitor
