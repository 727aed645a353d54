/-
  Bluebox.Whowas

  The nick history (`libratboxcore/whowas.c`): a ring of slots, each on the chain of its
  hash and, while its client is on line, on a chain of that client.

  A slot is used again while it is on both chains.  Both chains have the slots of their key,
  newest first, so the history is a bounded log, and `get_history` a search in it.
-/
import Bluebox.Lib.Threads
import Bluebox.Channel.Table

namespace Bluebox.Whowas

open Bluebox.Lib
open Bluebox.Chan (fnvHashUpperLen)

-- ============================================================================
-- Data
-- ============================================================================

/-- The fields of `struct Client` that are logged; `servername` is that of `servptr`. -/
structure Client where
  name : CStr
  username : Bytes
  host : Bytes
  virthost : Bytes
  info : Bytes
  cloaked : Bool
  servername : Bytes
deriving DecidableEq

/-- `struct Whowas`, without the pointers of its chains.  `hashv` is none for -1. -/
structure Slot where
  hashv : Option UInt32
  name : CStr
  username : Bytes
  hostname : Bytes
  virthost : Bytes
  servername : Bytes
  realname : Bytes
  cloak : Bool
  logoff : Int
  online : Option Nat

/-- The slots, the two kinds of chains, and the slot that is used next.  `whowas` is the
    field of the clients. -/
structure World where
  slots : Nat → Slot
  list : Threads Nat
  clist : Threads Nat
  whowasHash : UInt32 → Option Nat
  whowas : Nat → Option Nat
  whowasNext : Nat

/-- A zeroed slot with the hash -1. -/
def emptySlot : Slot := ⟨none, ⟨[], List.not_mem_nil⟩, [], [], [], [], [], false, 0, none⟩

/-- `initwhowas`. -/
def World.start : World :=
  ⟨fun _ => emptySlot, ⟨fun _ => none, fun _ => none⟩, ⟨fun _ => none, fun _ => none⟩, fun _ => none,
    fun _ => none, 0⟩

/-- `hash_whowas_name`. -/
def hashWhowasName (s : CStr) : UInt32 := fnvHashUpperLen s.bytes 16 s.bytes.length

-- ============================================================================
-- add_history
-- ============================================================================

/-- A slot leaves the chain of its client. -/
def World.offClist (w : World) (d i : Nat) : World :=
  { w with
    clist := (w.clist.unlink (w.whowas d) i).1
    whowas := Function.update w.whowas d (w.clist.unlink (w.whowas d) i).2 }

/-- A slot leaves the chain of its hash. -/
def World.offList (w : World) (h : UInt32) (i : Nat) : World :=
  { w with
    list := (w.list.unlink (w.whowasHash h) i).1
    whowasHash := Function.update w.whowasHash h (w.list.unlink (w.whowasHash h) i).2 }

/-- A slot in use leaves its chains. -/
def World.forget (w : World) (i : Nat) : World :=
  match (w.slots i).hashv with
  | none => w
  | some h =>
    match (w.slots i).online with
    | none => w.offList h i
    | some d => (w.offClist d i).offList h i

/-- What is logged. -/
def fillSlot (c : Nat) (cl : Client) (online : Bool) (now : Int) : Slot where
  hashv := some (hashWhowasName cl.name)
  name := cl.name
  username := cl.username
  hostname := cl.host
  virthost := cl.virthost
  servername := cl.servername
  realname := cl.info
  cloak := cl.cloaked
  logoff := now
  online := if online then some c else none

/-- Write a slot. -/
def World.setSlot (w : World) (i : Nat) (s : Slot) : World :=
  { w with slots := Function.update w.slots i s }

/-- `add_whowas_to_clist`. -/
def World.onClist (w : World) (c i : Nat) : World :=
  { w with clist := w.clist.push (w.whowas c) i, whowas := Function.update w.whowas c (some i) }

/-- `add_whowas_to_list`. -/
def World.onList (w : World) (h : UInt32) (i : Nat) : World :=
  { w with list := w.list.push (w.whowasHash h) i, whowasHash := Function.update w.whowasHash h (some i) }

/-- The slot after the last is the first. -/
def World.advance (w : World) (len : Nat) : World :=
  { w with whowasNext := if w.whowasNext + 1 = len then 0 else w.whowasNext + 1 }

/-- `add_history`, with `len` slots. -/
def addHistory (len : Nat) (w : World) (c : Nat) (cl : Client) (online : Bool) (now : Int) : World :=
  let i := w.whowasNext
  let w := (w.forget i).setSlot i (fillSlot c cl online now)
  let w := if online then w.onClist c i else w
  (w.onList (hashWhowasName cl.name) i).advance len

-- ============================================================================
-- off_history and get_history
-- ============================================================================

/-- `online = NULL`. -/
def Slot.goOff (s : Slot) : Slot := { s with online := none }

/-- The walk of `off_history` over the chain of a client; none when it does not end. -/
def offLoop (c : Nat) : Nat → Option Nat → World → Option World
  | _, none, w => some w
  | 0, some _, _ => none
  | fuel + 1, some i, w => offLoop c fuel (w.clist.next i) ((w.setSlot i (w.slots i).goOff).offClist c i)

/-- `off_history`. -/
def offHistory (len : Nat) (w : World) (c : Nat) : Option World := offLoop c len (w.whowas c) w

/-- The walk of `get_history` over a chain; none when it does not end. -/
def getLoop (w : World) (nick : CStr) (timelimit : Int) : Nat → Option Nat → Option (Option Nat)
  | _, none => some none
  | 0, some _ => none
  | fuel + 1, some i =>
    if irccmp nick.bytes (w.slots i).name.bytes ≠ 0 then getLoop w nick timelimit fuel (w.list.next i)
    else if (w.slots i).logoff < timelimit then getLoop w nick timelimit fuel (w.list.next i)
    else some (w.slots i).online

/-- `get_history`. -/
def getHistory (len : Nat) (w : World) (nick : CStr) (timelimit now : Int) : Option (Option Nat) :=
  getLoop w nick (now - timelimit) len (w.whowasHash (hashWhowasName nick))

-- ============================================================================
-- Calls
-- ============================================================================

/-- A call, or the allocation of a zeroed client at an address. -/
inductive Call
  | add (c : Nat) (cl : Client) (online : Bool) (now : Int)
  | off (c : Nat)
  | alloc (c : Nat)

/-- Run a call. -/
def step (len : Nat) (w : World) : Call → Option World
  | .add c cl online now => some (addHistory len w c cl online now)
  | .off c => offHistory len w c
  | .alloc c => some { w with whowas := Function.update w.whowas c none }

/-- Run calls, the newest first in the list. -/
def run (len : Nat) : List Call → Option World
  | [] => some World.start
  | call :: earlier => (run len earlier).bind fun w => step len w call

/-- `off_history` was called since the client was last logged as on line. -/
def Released (c : Nat) : List Call → Prop
  | [] => True
  | .off d :: earlier => d = c ∨ Released c earlier
  | .add d _ online _ :: earlier => ¬ (d = c ∧ online = true) ∧ Released c earlier
  | .alloc _ :: earlier => Released c earlier

/-- The memory of a client is used again only after `off_history`. -/
def Lives : List Call → Prop
  | [] => True
  | .alloc c :: earlier => Released c earlier ∧ Lives earlier
  | _ :: earlier => Lives earlier

-- ============================================================================
-- The log
-- ============================================================================

/-- An entry of the log. -/
structure Entry where
  name : CStr
  logoff : Int
  online : Option Nat

/-- A client goes off line. -/
def Entry.goOff (c : Nat) (e : Entry) : Entry := if e.online = some c then { e with online := none } else e

/-- All that was logged, the newest first. -/
def logged : List Call → List Entry
  | [] => []
  | .add c cl online now :: earlier => ⟨cl.name, now, if online then some c else none⟩ :: logged earlier
  | .off c :: earlier => (logged earlier).map (Entry.goOff c)
  | .alloc _ :: earlier => logged earlier

/-- The slots in use after so many entries, the newest first: each entry takes the next one
    of the ring. -/
def newestFirst (len n : Nat) : List Nat := (List.range (min n len)).map fun i => (n - 1 - i) % len

/-- The history as a log of the last entries. -/
structure Faithful (len : Nat) (calls : List Call) (w : World) : Prop where
  used : ∀ i, i ∈ newestFirst len (logged calls).length ↔ i < len ∧ (w.slots i).hashv ≠ none
  bucket : ∀ b, Seg w.list none (w.whowasHash b)
    ((newestFirst len (logged calls).length).filter fun i => (w.slots i).hashv == some b)
  clients : ∀ c, ∃ l, Seg w.clist none (w.whowas c) l ∧ l.Nodup ∧
    ∀ i, i ∈ l ↔ i < len ∧ (w.slots i).online = some c
  gone : ∀ later c cl online now earlier d, calls = later ++ .add c cl online now :: earlier →
    (logged later).length < len → .off d ∈ later →
    (w.slots ((logged earlier).length % len)).online ≠ some d
  get : ∀ nick timelimit now, getHistory len w nick timelimit now =
    some ((((logged calls).take len).find? fun e =>
      irccmp nick.bytes e.name.bytes == 0 && decide (now - timelimit ≤ e.logoff)).bind Entry.online)

-- ============================================================================
-- The ring
-- ============================================================================

section Ring

variable {len : Nat}

theorem newestFirst_lt (hlen : 0 < len) {n i : Nat} (h : i ∈ newestFirst len n) : i < len := by
  obtain ⟨k, -, rfl⟩ := List.mem_map.mp h
  exact Nat.mod_lt _ hlen

theorem nodup_newestFirst (len n : Nat) : (newestFirst len n).Nodup := by
  refine List.Nodup.map_on ?_ List.nodup_range
  intro i hi j hj heq
  rw [List.mem_range] at hi hj
  -- Two indices below `len` that give one slot are equal.
  have key : ∀ a b, a ≤ b → b < min n len → (n - 1 - a) % len = (n - 1 - b) % len → a = b := by
    intro a b hab hb hmod
    have hdvd := Nat.sub_mod_eq_zero_of_mod_eq hmod
    have hsub : (n - 1 - a) - (n - 1 - b) = b - a := by omega
    rw [hsub] at hdvd
    rw [Nat.mod_eq_of_lt (by omega)] at hdvd
    omega
  rcases Nat.le_total i j with hij | hij
  · exact key i j hij hj heq
  · exact (key j i hij hi heq.symm).symm

/-- The slot after the last is the first. -/
theorem wrap_mod (len n : Nat) :
    (if n % (len + 1) + 1 = len + 1 then 0 else n % (len + 1) + 1) = (n + 1) % (len + 1) := by
  have hlt : n % (len + 1) < len + 1 := Nat.mod_lt n (Nat.succ_pos len)
  rw [← Nat.mod_add_mod n (len + 1) 1]
  split
  · rename_i h
    rw [h, Nat.mod_self]
  · rw [Nat.mod_eq_of_lt (a := n % (len + 1) + 1) (by omega)]

theorem newestFirst_succ_take (n : Nat) :
    newestFirst (len + 1) (n + 1) = n % (len + 1) :: (newestFirst (len + 1) n).take len := by
  unfold newestFirst
  have hmin : min (n + 1) (len + 1) = min n len + 1 := by omega
  rw [hmin, List.range_succ_eq_map, List.map_cons, List.map_map, ← List.map_take, List.take_range]
  have htake : min len (min n (len + 1)) = min n len := by omega
  rw [htake]
  refine congrArg₂ List.cons rfl (List.map_congr_left fun i _ => ?_)
  rw [Function.comp_apply]
  congr 1
  omega

theorem newestFirst_take (n : Nat) :
    (newestFirst (len + 1) n).take len = (newestFirst (len + 1) n).erase (n % (len + 1)) := by
  have hlength : (newestFirst (len + 1) n).length = min n (len + 1) := by
    rw [newestFirst, List.length_map, List.length_range]
  by_cases hn : n ≤ len
  · -- The next slot is not in use yet.
    have hnot : n % (len + 1) ∉ newestFirst (len + 1) n := by
      intro h
      obtain ⟨i, hi, heq⟩ := List.mem_map.mp h
      rw [List.mem_range] at hi
      rw [Nat.mod_eq_of_lt (by omega), Nat.mod_eq_of_lt (by omega)] at heq
      omega
    rw [List.erase_of_not_mem hnot, List.take_of_length_le (by omega)]
  · -- The next slot is the oldest.
    have hsplit : newestFirst (len + 1) n = (newestFirst (len + 1) n).take len ++ [n % (len + 1)] := by
      have hmin : min n (len + 1) = len + 1 := by omega
      have hlast : (n - 1 - len) % (len + 1) = n % (len + 1) := by
        rw [show n = (n - 1 - len) + (len + 1) by omega, Nat.add_mod_right]
        congr 1
        omega
      unfold newestFirst
      rw [hmin, ← List.map_take, List.take_range, Nat.min_eq_left (by omega), List.range_succ,
        List.map_append, List.map_singleton, hlast]
    have hnodup := nodup_newestFirst (len + 1) n
    rw [hsplit] at hnodup
    have hnot : n % (len + 1) ∉ (newestFirst (len + 1) n).take len := fun h =>
      (List.disjoint_of_nodup_append hnodup) h List.mem_cons_self
    conv_rhs => rw [hsplit]
    rw [List.erase_append_right _ hnot, List.erase_cons_head, List.append_nil]

end Ring

-- ============================================================================
-- The invariant
-- ============================================================================

/-- A slot holds an entry of the log. -/
structure Holds (w : World) (i : Nat) (e : Entry) : Prop where
  hashv : (w.slots i).hashv = some (hashWhowasName e.name)
  name : (w.slots i).name = e.name
  logoff : (w.slots i).logoff = e.logoff
  online : (w.slots i).online = e.online

/-- The slots hold the last entries, and both kinds of chains are as they should be. -/
structure Ok (len : Nat) (w : World) (es : List Entry) : Prop where
  next : w.whowasNext = es.length % len
  held : List.Forall₂ (Holds w) (newestFirst len es.length) (es.take len)
  unused : ∀ i, i ∉ newestFirst len es.length → (w.slots i).hashv = none ∧ (w.slots i).online = none
  list : Keyed w.list w.whowasHash (fun i => (w.slots i).hashv) (newestFirst len es.length)
  clist : Keyed w.clist w.whowas (fun i => (w.slots i).online) (newestFirst len es.length)

theorem ok_start (len : Nat) : Ok len World.start [] where
  next := (Nat.zero_mod len).symm
  held := by
    have hnil : newestFirst len 0 = [] := by
      rw [newestFirst, Nat.zero_min]
      rfl
    rw [List.length_nil, hnil, List.take_nil]
    exact .nil
  unused _ _ := ⟨rfl, rfl⟩
  list := by
    intro k
    rw [List.filter_eq_nil_iff.mpr fun i _ => by exact nofun]
    rfl
  clist := by
    intro k
    rw [List.filter_eq_nil_iff.mpr fun i _ => by exact nofun]
    rfl

section Steps

variable {len : Nat} {w : World} {es : List Entry}

theorem hashv_of_holds {l : List Nat} (h : List.Forall₂ (Holds w) l es) :
    ∀ {i : Nat}, i ∈ l → (w.slots i).hashv ≠ none := by
  induction h with
  | nil => exact fun hi => absurd hi List.not_mem_nil
  | cons hhead _ ih =>
    intro i hi
    rcases List.mem_cons.mp hi with rfl | hi
    · rw [hhead.hashv]
      nofun
    · exact ih hi

theorem holds_congr {w' : World} {l : List Nat} (h : List.Forall₂ (Holds w) l es) :
    (∀ i ∈ l, w'.slots i = w.slots i) → List.Forall₂ (Holds w') l es := by
  induction h with
  | nil => exact fun _ => .nil
  | cons hhead _ ih =>
    intro hsame
    have hslot := hsame _ List.mem_cons_self
    refine .cons ⟨?_, ?_, ?_, ?_⟩ (ih fun i hi => hsame i (List.mem_cons_of_mem _ hi))
    · rw [hslot, hhead.hashv]
    · rw [hslot, hhead.name]
    · rw [hslot, hhead.logoff]
    · rw [hslot, hhead.online]

/-- A slot that is used again has left its chains. -/
theorem forget_spec {used : List Nat} {i : Nat} (hnodup : used.Nodup)
    (hin : i ∈ used ↔ (w.slots i).hashv ≠ none)
    (hlist : Keyed w.list w.whowasHash (fun i => (w.slots i).hashv) used)
    (hclist : Keyed w.clist w.whowas (fun i => (w.slots i).online) used) :
    (w.forget i).slots = w.slots ∧ (w.forget i).whowasNext = w.whowasNext ∧
      Keyed (w.forget i).list (w.forget i).whowasHash (fun i => (w.slots i).hashv) (used.erase i) ∧
      Keyed (w.forget i).clist (w.forget i).whowas (fun i => (w.slots i).online) (used.erase i) := by
  unfold World.forget
  cases hhash : (w.slots i).hashv with
  | none =>
    have hnot : i ∉ used := fun h => hin.mp h hhash
    rw [List.erase_of_not_mem hnot]
    exact ⟨rfl, rfl, hlist, hclist⟩
  | some h =>
    have hmem : i ∈ used := hin.mpr (by rw [hhash]; nofun)
    cases honline : (w.slots i).online with
    | none =>
      exact ⟨rfl, rfl, hlist.erase hnodup hmem hhash, hclist.erase_of_none honline hnodup⟩
    | some d =>
      exact ⟨rfl, rfl, hlist.erase hnodup hmem hhash, hclist.erase hnodup hmem honline⟩

/-- A slot that was filled is on the chains of its keys. -/
theorem filled_spec {used : List Nat} {i : Nat} (hnodup : used.Nodup) (hi : i ∉ used)
    (hlist : Keyed w.list w.whowasHash (fun i => (w.slots i).hashv) used)
    (hclist : Keyed w.clist w.whowas (fun i => (w.slots i).online) used)
    (c : Nat) (cl : Client) (online : Bool) (now : Int) :
    let w₁ := w.setSlot i (fillSlot c cl online now)
    let w₂ := (if online then w₁.onClist c i else w₁).onList (hashWhowasName cl.name) i
    w₂.slots = Function.update w.slots i (fillSlot c cl online now) ∧ w₂.whowasNext = w.whowasNext ∧
      Keyed w₂.list w₂.whowasHash (fun i => (w₂.slots i).hashv) (i :: used) ∧
      Keyed w₂.clist w₂.whowas (fun i => (w₂.slots i).online) (i :: used) := by
  intro w₁ w₂
  have hself : w₁.slots i = fillSlot c cl online now := Function.update_self ..
  have hother : ∀ x ∈ used, w₁.slots x = w.slots x := fun x hx =>
    Function.update_of_ne (fun h : x = i => hi (h ▸ hx)) ..
  have hlist₁ : Keyed w₁.list w₁.whowasHash (fun i => (w₁.slots i).hashv) used :=
    hlist.congr fun x hx => congrArg Slot.hashv (hother x hx)
  have hclist₁ : Keyed w₁.clist w₁.whowas (fun i => (w₁.slots i).online) used :=
    hclist.congr fun x hx => congrArg Slot.online (hother x hx)
  have hpush := hlist₁.push hnodup hi (congrArg Slot.hashv hself)
  cases online with
  | true => exact ⟨rfl, rfl, hpush, hclist₁.push hnodup hi (congrArg Slot.online hself)⟩
  | false => exact ⟨rfl, rfl, hpush, hclist₁.cons_of_none (congrArg Slot.online hself)⟩

/-- `add_history` logs an entry. -/
theorem Ok.add (h : Ok (len + 1) w es) (c : Nat) (cl : Client) (online : Bool) (now : Int) :
    Ok (len + 1) (addHistory (len + 1) w c cl online now)
      (⟨cl.name, now, if online then some c else none⟩ :: es) := by
  have hnodup := nodup_newestFirst (len + 1) es.length
  have hin : ∀ i, i ∈ newestFirst (len + 1) es.length ↔ (w.slots i).hashv ≠ none := fun i =>
    ⟨hashv_of_holds h.held, fun hne => by_contra fun hi => hne (h.unused i hi).1⟩
  obtain ⟨hslots, hnext, hlist, hclist⟩ := forget_spec hnodup (hin w.whowasNext)
    h.list h.clist
  rw [← hslots] at hlist hclist
  have hi : w.whowasNext ∉ (newestFirst (len + 1) es.length).erase w.whowasNext := hnodup.not_mem_erase
  obtain ⟨hslots', hnext', hlist', hclist'⟩ :=
    filled_spec (hnodup.erase _) hi hlist hclist c cl online now
  have hused : newestFirst (len + 1) (es.length + 1) =
      w.whowasNext :: (newestFirst (len + 1) es.length).erase w.whowasNext := by
    rw [newestFirst_succ_take, newestFirst_take, h.next]
  rw [hslots] at hslots'
  have hfilled : ∀ x, x ≠ w.whowasNext → (addHistory (len + 1) w c cl online now).slots x = w.slots x :=
    fun x hx => (congrFun hslots' x).trans (Function.update_of_ne hx ..)
  refine ⟨?_, ?_, ?_, ?_, ?_⟩
  · show (if _ + 1 = len + 1 then 0 else _ + 1) = _
    rw [hnext'.trans hnext, h.next, List.length_cons]
    exact wrap_mod len es.length
  · rw [List.length_cons, hused, List.take_succ_cons]
    refine .cons ?_ ?_
    · have hself : (addHistory (len + 1) w c cl online now).slots w.whowasNext = fillSlot c cl online now :=
        (congrFun hslots' _).trans (Function.update_self ..)
      exact ⟨congrArg Slot.hashv hself, congrArg Slot.name hself, congrArg Slot.logoff hself,
        congrArg Slot.online hself⟩
    · have htake := List.forall₂_take len h.held
      rw [List.take_take, Nat.min_eq_left (by omega), newestFirst_take, ← h.next] at htake
      refine holds_congr htake fun x hx => hfilled x ?_
      exact fun heq => hi (heq ▸ hx)
  · intro x hx
    rw [List.length_cons, hused, List.mem_cons, not_or] at hx
    rw [hfilled x hx.1]
    refine h.unused x fun hmem => hx.2 ?_
    exact (hnodup.mem_erase_iff).mpr ⟨hx.1, hmem⟩
  · rw [List.length_cons, hused]
    exact hlist'
  · rw [List.length_cons, hused]
    exact hclist'

/-- The walk of `off_history`: the slots of the client lose it, one after the other. -/
theorem offLoop_spec {used : List Nat} (hnodup : used.Nodup) (c : Nat) : ∀ (n : Nat) {w : World},
    (used.filter fun i => (w.slots i).online == some c).length = n →
    Keyed w.clist w.whowas (fun i => (w.slots i).online) used → ∀ fuel, n ≤ fuel →
    ∃ w', offLoop c fuel (w.whowas c) w = some w' ∧ w'.whowasNext = w.whowasNext ∧ w'.list = w.list ∧
      w'.whowasHash = w.whowasHash ∧
      (∀ i, w'.slots i = if i ∈ used ∧ (w.slots i).online = some c then (w.slots i).goOff
        else w.slots i) ∧
      Keyed w'.clist w'.whowas (fun i => (w'.slots i).online) used := by
  intro n
  induction n with
  | zero =>
    intro w hlength hclist fuel _
    have hnil := List.length_eq_zero_iff.mp hlength
    have hseg := hclist c
    rw [hnil] at hseg
    have hhead : w.whowas c = none := hseg
    rw [hhead]
    refine ⟨w, by cases fuel <;> rfl, rfl, rfl, rfl, fun i => (if_neg ?_).symm, hclist⟩
    rintro ⟨hi, honline⟩
    have hmem : i ∈ used.filter fun i => (w.slots i).online == some c :=
      List.mem_filter.mpr ⟨hi, beq_iff_eq.mpr honline⟩
    rw [hnil] at hmem
    exact List.not_mem_nil hmem
  | succ n ih =>
    intro w hlength hclist fuel hfuel
    obtain ⟨fuel, rfl⟩ : ∃ k, fuel = k + 1 := ⟨fuel - 1, by omega⟩
    obtain ⟨i, l, hl⟩ : ∃ i l, (used.filter fun i => (w.slots i).online == some c) = i :: l :=
      List.exists_cons_of_ne_nil (by intro h; rw [h] at hlength; cases hlength)
    have hseg := hclist c
    rw [hl] at hseg
    obtain ⟨hhead, -, hrest⟩ := hseg
    have hmem : i ∈ used.filter fun i => (w.slots i).online == some c := hl ▸ List.mem_cons_self
    obtain ⟨hused, honline⟩ := List.mem_filter.mp hmem
    have honline := beq_iff_eq.mp honline
    have hunkey := hclist.unkey hnodup hused honline
    -- The slot goes off line and leaves the chain.
    have hslots : ∀ x, ((w.setSlot i (w.slots i).goOff).offClist c i).slots x =
        if x = i then (w.slots i).goOff else w.slots x := fun x => Function.update_apply ..
    have hkey : (fun x => (((w.setSlot i (w.slots i).goOff).offClist c i).slots x).online) =
        Function.update (fun x => (w.slots x).online) i none := by
      funext x
      rw [hslots, Function.update_apply]
      split <;> rfl
    have hfilter : (used.filter fun x =>
        (((w.setSlot i (w.slots i).goOff).offClist c i).slots x).online == some c) = l := by
      have herase := (hnodup.filter fun x => (w.slots x).online == some c).erase_eq_filter i
      rw [hl, List.erase_cons_head, ← hl, List.filter_filter] at herase
      rw [herase]
      refine List.filter_congr fun x _ => ?_
      rw [hslots]
      by_cases hx : x = i
      · rw [if_pos hx, hx, bne_self_eq_false]
        rfl
      · rw [if_neg hx, bne_iff_ne.mpr hx, Bool.true_and]
    obtain ⟨w', hrun, hnext', hlist', hhash', hslots', hclist'⟩ :=
      ih (by rw [hfilter]; rw [hl] at hlength; exact Nat.succ.inj hlength)
        (by rw [hkey]; exact hunkey) fuel (by omega)
    have hwhowas : ((w.setSlot i (w.slots i).goOff).offClist c i).whowas c = w.clist.next i := by
      have hthen := hunkey c
      rw [← hkey] at hthen
      rw [hfilter] at hthen
      exact hthen.head_eq.trans hrest.head_eq.symm
    rw [hwhowas] at hrun
    refine ⟨w', ?_, hnext', hlist', hhash', fun x => ?_, hclist'⟩
    · rw [hhead]
      exact hrun
    · rw [hslots' x, hslots x]
      by_cases hx : x = i
      · subst hx
        have hnone : ¬ (x ∈ used ∧ (w.slots x).goOff.online = some c) := fun h =>
          absurd h.2 (show ¬ (none : Option Nat) = some c from nofun)
        rw [if_pos rfl, if_neg hnone, if_pos ⟨hused, honline⟩]
      · rw [if_neg hx]

theorem holds_goOff {w' : World} {c : Nat} {l : List Nat} (h : List.Forall₂ (Holds w) l es) :
    (∀ i ∈ l, w'.slots i = if (w.slots i).online = some c then (w.slots i).goOff else w.slots i) →
    List.Forall₂ (Holds w') l (es.map (Entry.goOff c)) := by
  induction h with
  | nil => exact fun _ => .nil
  | @cons i e _ _ hhead _ ih =>
    intro hslots
    have hslot := hslots i List.mem_cons_self
    refine .cons ?_ (ih fun x hx => hslots x (List.mem_cons_of_mem _ hx))
    unfold Entry.goOff
    by_cases hc : e.online = some c
    · rw [if_pos (hhead.online.trans hc)] at hslot
      rw [if_pos hc]
      exact ⟨by rw [hslot]; exact hhead.hashv, by rw [hslot]; exact hhead.name,
        by rw [hslot]; exact hhead.logoff, by rw [hslot]; rfl⟩
    · rw [if_neg fun h => hc (hhead.online.symm.trans h)] at hslot
      rw [if_neg hc]
      exact ⟨by rw [hslot]; exact hhead.hashv, by rw [hslot]; exact hhead.name,
        by rw [hslot]; exact hhead.logoff, by rw [hslot]; exact hhead.online⟩

theorem length_newestFirst (len n : Nat) : (newestFirst len n).length = min n len := by
  rw [newestFirst, List.length_map, List.length_range]

/-- `off_history` takes a client off line in the log. -/
theorem Ok.off (h : Ok len w es) (c : Nat) :
    ∃ w', offHistory len w c = some w' ∧ Ok len w' (es.map (Entry.goOff c)) := by
  have hnodup := nodup_newestFirst len es.length
  have hfuel : ((newestFirst len es.length).filter fun i => (w.slots i).online == some c).length ≤
      len := by
    have hle := List.length_filter_le (fun i => (w.slots i).online == some c) (newestFirst len es.length)
    rw [length_newestFirst] at hle
    omega
  obtain ⟨w', hrun, hnext, hlist, hhash, hslots, hclist⟩ :=
    offLoop_spec hnodup c _ rfl h.clist len hfuel
  have hhashv : ∀ i, (w'.slots i).hashv = (w.slots i).hashv := by
    intro i
    rw [hslots i]
    split <;> rfl
  refine ⟨w', hrun, ?_, ?_, ?_, ?_, ?_⟩
  · rw [hnext, h.next, List.length_map]
  · rw [List.length_map, ← List.map_take]
    refine holds_goOff h.held fun i hi => ?_
    rw [hslots i]
    exact if_congr (and_iff_right hi) rfl rfl
  · intro i hi
    rw [List.length_map] at hi
    rw [hslots i, if_neg fun hmem => hi hmem.1]
    exact h.unused i hi
  · rw [List.length_map, hlist, hhash]
    exact h.list.congr fun x _ => hhashv x
  · rw [List.length_map]
    exact hclist

theorem online_of_holds {l : List Nat} (h : List.Forall₂ (Holds w) l es) :
    ∀ {i : Nat}, i ∈ l → ∃ e ∈ es, (w.slots i).online = e.online := by
  induction h with
  | nil => exact fun hi => absurd hi List.not_mem_nil
  | @cons j e _ _ hhead _ ih =>
    intro i hi
    rcases List.mem_cons.mp hi with rfl | hi
    · exact ⟨e, List.mem_cons_self, hhead.online⟩
    · obtain ⟨e', he', heq⟩ := ih hi
      exact ⟨e', List.mem_cons_of_mem e he', heq⟩

/-- A client that is not on line in the log has no chain. -/
theorem Ok.whowas_eq_none (h : Ok len w es) {c : Nat} (hc : ∀ e ∈ es, e.online ≠ some c) :
    w.whowas c = none := by
  have hseg := h.clist c
  rw [List.filter_eq_nil_iff.mpr ?_] at hseg
  · exact hseg
  · intro i hi honline
    obtain ⟨e, he, heq⟩ := online_of_holds h.held hi
    exact hc e (List.mem_of_mem_take he) (heq.symm.trans (beq_iff_eq.mp honline))

/-- The walk of `get_history` finds what a search of the chain finds. -/
theorem getLoop_spec {nick : CStr} {timelimit : Int} (l : List Nat) : ∀ {before head : Option Nat},
    Seg w.list before head l → ∀ fuel, l.length ≤ fuel →
    getLoop w nick timelimit fuel head = some ((l.find? fun i =>
      irccmp nick.bytes (w.slots i).name.bytes == 0 && decide (timelimit ≤ (w.slots i).logoff)).bind
        fun i => (w.slots i).online) := by
  induction l with
  | nil =>
    intro before head hseg fuel _
    obtain rfl : head = none := hseg
    cases fuel <;> rfl
  | cons i l ih =>
    intro before head ⟨hhead, _, hrest⟩ fuel hfuel
    obtain ⟨fuel, rfl⟩ : ∃ k, fuel = k + 1 := ⟨fuel - 1, by rw [List.length_cons] at hfuel; omega⟩
    have hgo := ih hrest fuel (Nat.le_of_succ_le_succ hfuel)
    rw [hhead, getLoop, List.find?_cons]
    by_cases hname : irccmp nick.bytes (w.slots i).name.bytes = 0
    · rw [if_neg (not_not_intro hname), beq_iff_eq.mpr hname, Bool.true_and]
      by_cases htime : (w.slots i).logoff < timelimit
      · rw [if_pos htime, decide_eq_false (by omega)]
        exact hgo
      · rw [if_neg htime, decide_eq_true (by omega)]
        rfl
    · rw [if_pos hname, beq_eq_false_iff_ne.mpr hname, Bool.false_and]
      exact hgo

/-- Names that compare equal have one hash. -/
theorem hashWhowasName_congr {s t : CStr} (h : irccmp s.bytes t.bytes = 0) :
    hashWhowasName s = hashWhowasName t := by
  have hmap := (irccmp_eq_zero_iff s.noNul t.noNul).mp h
  unfold hashWhowasName fnvHashUpperLen
  rw [List.take_length, List.take_length, hmap]

theorem find?_holds {q : Nat → Bool} {q' : Entry → Bool} {l : List Nat}
    (hq : ∀ i e, Holds w i e → q i = q' e) (h : List.Forall₂ (Holds w) l es) :
    (l.find? q).bind (fun i => (w.slots i).online) = (es.find? q').bind Entry.online := by
  induction h with
  | nil => rfl
  | @cons i e _ _ hhead _ ih =>
    rw [List.find?_cons, List.find?_cons, hq i e hhead]
    cases q' e with
    | true => exact hhead.online
    | false => exact ih

/-- `get_history` is a search of the last entries. -/
theorem Ok.get (h : Ok len w es) (nick : CStr) (timelimit now : Int) :
    getHistory len w nick timelimit now = some (((es.take len).find? fun e =>
      irccmp nick.bytes e.name.bytes == 0 && decide (now - timelimit ≤ e.logoff)).bind Entry.online) := by
  have hfuel : ((newestFirst len es.length).filter fun i =>
      (w.slots i).hashv == some (hashWhowasName nick)).length ≤ len := by
    have hle := List.length_filter_le (fun i => (w.slots i).hashv == some (hashWhowasName nick))
      (newestFirst len es.length)
    rw [length_newestFirst] at hle
    omega
  unfold getHistory
  rw [getLoop_spec _ (h.list (hashWhowasName nick)) len hfuel, List.find?_filter]
  congr 1
  refine find?_holds (fun i e hh => ?_) h.held
  simp only [hh.name, hh.logoff, hh.hashv]
  -- An entry with the name has its hash.
  by_cases hname : irccmp nick.bytes e.name.bytes = 0
  · rw [hashWhowasName_congr hname, beq_self_eq_true, beq_iff_eq.mpr hname]
    simp
  · rw [beq_eq_false_iff_ne.mpr hname, Bool.false_and]
    simp

end Steps

-- ============================================================================
-- Runs
-- ============================================================================

/-- What later calls do to an entry. -/
def afterCalls : List Call → Entry → Entry
  | [], e => e
  | .off c :: earlier, e => (afterCalls earlier e).goOff c
  | _ :: earlier, e => afterCalls earlier e

theorem logged_append (later earlier : List Call) :
    logged (later ++ earlier) = logged later ++ (logged earlier).map (afterCalls later) := by
  induction later with
  | nil => exact (List.map_id _).symm
  | cons call later ih =>
    cases call with
    | add c cl online now =>
      rw [List.cons_append, logged, logged, ih]
      rfl
    | off c =>
      rw [List.cons_append, logged, logged, ih, List.map_append, List.map_map]
      rfl
    | alloc c => exact ih

theorem goOff_online_ne {c d : Nat} {e : Entry} (h : e.online ≠ some d ∨ c = d) :
    (e.goOff c).online ≠ some d := by
  unfold Entry.goOff
  split
  · nofun
  · rename_i hc
    rcases h with h | rfl
    · exact h
    · exact hc

/-- `off_history` leaves no entry with the client. -/
theorem afterCalls_online {d : Nat} (later : List Call) (h : .off d ∈ later) (e : Entry) :
    (afterCalls later e).online ≠ some d := by
  induction later with
  | nil => exact absurd h List.not_mem_nil
  | cons call later ih =>
    rcases List.mem_cons.mp h with rfl | hlater
    · exact goOff_online_ne (Or.inr rfl)
    · cases call with
      | add c cl online now => exact ih hlater
      | off c => exact goOff_online_ne (Or.inl (ih hlater))
      | alloc c => exact ih hlater

/-- A released client is not on line in the log. -/
theorem logged_of_released {c : Nat} (calls : List Call) (h : Released c calls) :
    ∀ e ∈ logged calls, e.online ≠ some c := by
  induction calls with
  | nil => exact fun e he => absurd he List.not_mem_nil
  | cons call earlier ih =>
    intro e he
    cases call with
    | add d cl online now =>
      rcases List.mem_cons.mp he with rfl | he
      · intro hon
        cases online with
        | true => exact h.1 ⟨Option.some.inj hon, rfl⟩
        | false => cases hon
      · exact ih h.2 e he
    | off d =>
      obtain ⟨e', he', rfl⟩ := List.mem_map.mp he
      rcases h with rfl | h
      · exact goOff_online_ne (Or.inr rfl)
      · exact goOff_online_ne (Or.inl (ih h e' he'))
    | alloc d => exact ih h e he

/-- Every run keeps the invariant, and every walk ends. -/
theorem run_ok (len : Nat) (calls : List Call) (h : Lives calls) :
    ∃ w, run (len + 1) calls = some w ∧ Ok (len + 1) w (logged calls) := by
  induction calls with
  | nil => exact ⟨World.start, rfl, ok_start (len + 1)⟩
  | cons call earlier ih =>
    cases call with
    | add c cl online now =>
      obtain ⟨w, hrun, hok⟩ := ih h
      exact ⟨_, by rw [run, hrun]; rfl, hok.add c cl online now⟩
    | off c =>
      obtain ⟨w, hrun, hok⟩ := ih h
      obtain ⟨w', hoff, hok'⟩ := hok.off c
      exact ⟨w', by rw [run, hrun]; exact hoff, hok'⟩
    | alloc c =>
      obtain ⟨w, hrun, hok⟩ := ih h.2
      -- A client that was released has no chain already.
      have hnone := hok.whowas_eq_none (logged_of_released earlier h.1)
      have hsame : Function.update w.whowas c none = w.whowas := by
        rw [← hnone, Function.update_eq_self]
      refine ⟨w, ?_, hok⟩
      rw [run, hrun]
      show some { w with whowas := Function.update w.whowas c none } = some w
      rw [hsame]

theorem Ok.faithful {len : Nat} {w : World} {calls : List Call}
    (h : Ok (len + 1) w (logged calls)) : Faithful (len + 1) calls w := by
  have hpos : 0 < len + 1 := Nat.succ_pos len
  refine ⟨fun i => ⟨fun hi => ⟨newestFirst_lt hpos hi, hashv_of_holds h.held hi⟩, fun hi => ?_⟩, h.list,
    fun c => ⟨_, h.clist c, (nodup_newestFirst _ _).filter _, fun i => ?_⟩, ?_, h.get⟩
  · exact by_contra fun hn => hi.2 (h.unused i hn).1
  · rw [List.mem_filter, beq_iff_eq]
    refine ⟨fun hi => ⟨newestFirst_lt hpos hi.1, hi.2⟩, fun hi => ⟨?_, hi.2⟩⟩
    refine by_contra fun hn => ?_
    rw [(h.unused i hn).2] at hi
    cases hi.2
  · intro later c cl online now earlier d hcalls hlater hoff
    have hlog : logged calls = logged later ++
        (logged (.add c cl online now :: earlier)).map (afterCalls later) := by
      rw [hcalls, logged_append]
    have hlength : (logged calls).length = (logged later).length + ((logged earlier).length + 1) := by
      rw [hlog, List.length_append, List.length_map]
      rfl
    -- The entry is as many places behind the newest as there were calls since.
    have hslot := h.held.get (i := (logged later).length)
      (by rw [length_newestFirst]; omega) (by rw [List.length_take]; omega)
    have honline := hslot.online
    have hindex : (newestFirst (len + 1) (logged calls).length).get
        ⟨(logged later).length, by rw [length_newestFirst]; omega⟩ = (logged earlier).length % (len + 1) := by
      simp only [newestFirst, List.get_eq_getElem, List.getElem_map, List.getElem_range]
      congr 1
      omega
    rw [hindex] at honline
    rw [honline, List.get_eq_getElem, List.getElem_take]
    simp only [hlog]
    rw [List.getElem_append_right (Nat.le_refl _)]
    simp only [Nat.sub_self, logged, List.map_cons, List.getElem_cons_zero]
    exact afterCalls_online later hoff _

/-- The nick history is a log of the last entries, in every run. -/
theorem history_faithful (len : Nat) (hlen : 0 < len) (calls : List Call) (h : Lives calls) :
    ∃ w, run len calls = some w ∧ Faithful len calls w := by
  obtain ⟨len, rfl⟩ : ∃ k, len = k + 1 := ⟨len - 1, by omega⟩
  obtain ⟨w, hrun, hok⟩ := run_ok len calls h
  exact ⟨w, hrun, hok.faithful⟩

/-- The user `a`. -/
def userA : Client := ⟨⟨[97], by decide⟩, [], [], [], [], false, []⟩

/-- Three entries in two slots, and the client is gone. -/
def threeCalls : List Call := [.alloc 1, .off 1, .add 2 userA true 3, .add 1 userA true 2, .add 1 userA true 1]

theorem history_faithful_three : ∃ w, run 2 threeCalls = some w ∧ Faithful 2 threeCalls w ∧
    getHistory 2 w ⟨[65], by decide⟩ 10 5 = some (some 2) := by
  obtain ⟨w, hrun, hfaithful⟩ := history_faithful 2 (by decide) threeCalls ⟨Or.inl rfl, trivial⟩
  refine ⟨w, hrun, hfaithful, ?_⟩
  rw [hfaithful.get]
  decide +kernel

end Bluebox.Whowas
