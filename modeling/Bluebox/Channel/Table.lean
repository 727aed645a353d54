/-
  Bluebox.Channel.Table

  The channel table (`libratboxcore/hash.c`): `find_channel`,
  `get_or_create_channel` and `destroy_channel`, over the hash buckets and
  `global_channel_list`.

  Three lengths meet here.  A name is cut to `CHANNELLEN` bytes for the
  lookup, but stored by `rb_strndup` in a buffer of `CHANNELLEN` bytes, that is
  one byte shorter; a name that long is never found again.
-/
import Bluebox.Lib.Reach
import Bluebox.Channel.Basic

namespace Bluebox.Chan

open Bluebox.Lib

-- ============================================================================
-- Hashing
-- ============================================================================

/-- One byte of the FNV hash. -/
def fnvStep (h : UInt32) (b : UInt8) : UInt32 :=
  let h := h ^^^ b.toUInt32
  h + ((h <<< 1) + (h <<< 4) + (h <<< 7) + (h <<< 8) + (h <<< 24))

/-- `fnv_hash_upper_len`.  The `^` in `(2 ^ bits) - 1` is the exclusive or of C. -/
def fnvHashUpperLen (s : Bytes) (bits : UInt32) (len : Nat) : UInt32 :=
  let h := ((s.take len).map toUpper).foldl fnvStep 0x811c9dc5
  let bits := 32 - bits
  (h >>> bits) ^^^ (h &&& ((2 ^^^ bits) - 1))

/-- `hash_channel`. -/
def hashChannel (s : Bytes) : UInt32 := fnvHashUpperLen s 16 30

theorem hashChannel_congr {s t : Bytes}
    (h : (s.take 30).map toUpper = (t.take 30).map toUpper) : hashChannel s = hashChannel t := by
  unfold hashChannel fnvHashUpperLen
  rw [h]

-- ============================================================================
-- The table
-- ============================================================================

/-- All channels.  Addresses at or above `next` have not been allocated. -/
structure Table where
  chan : Nat → Channel
  next : Nat
  globalChannelList : List Nat
  channelTable : UInt32 → List Nat

/-- No channels. -/
def Table.start : Table := ⟨fun _ => allocateChannel [] 0, 0, [], fun _ => []⟩

/-- Write a channel back. -/
def Table.setChan (t : Table) (p : Nat) (ch : Channel) : Table :=
  { t with chan := Function.update t.chan p ch }

@[simp] theorem Table.chan_setChan (t : Table) (p : Nat) (ch : Channel) :
    (t.setChan p ch).chan p = ch := Function.update_self ..

/-- The bucket walk of the lookups. -/
def Table.lookup (t : Table) (s : Bytes) : Option Nat :=
  (t.channelTable (hashChannel s)).find? fun p => irccmp s (t.chan p).chname == 0

/-- `find_channel`. -/
def findChannel (t : Table) (name : Bytes) : Option Nat :=
  if name = [] then none else t.lookup name

/-- The name `get_or_create_channel` works with: a longer one is cut. -/
def lookupName (chname : Bytes) : Bytes :=
  if chname.length > channelLen then chname.take channelLen else chname

/-- A new channel, listed and hashed under `s`. -/
def Table.add (t : Table) (s : Bytes) (now : Int) : Table :=
  { chan := Function.update t.chan t.next (allocateChannel s now)
    next := t.next + 1
    globalChannelList := t.next :: t.globalChannelList
    channelTable := Function.update t.channelTable (hashChannel s)
      (t.next :: t.channelTable (hashChannel s)) }

@[simp] theorem Table.chan_add (t : Table) (s : Bytes) (now : Int) :
    (t.add s now).chan t.next = allocateChannel s now := Function.update_self ..

theorem Table.chan_add_of_ne {t : Table} {r : Nat} (hr : r ≠ t.next) (s : Bytes) (now : Int) :
    (t.add s now).chan r = t.chan r := Function.update_of_ne hr ..

/-- `get_or_create_channel`: the channel and whether it is new, or nothing for
    an empty name. -/
def getOrCreateChannel (t : Table) (chname : Bytes) (now : Int) : Table × Option (Nat × Bool) :=
  if chname = [] then (t, none)
  else
    match t.lookup (lookupName chname) with
    | some p => (t, some (p, false))
    | none => (t.add (lookupName chname) now, some (t.next, true))

theorem getOrCreateChannel_found {t : Table} {chname : Bytes} {p : Nat} (hne : chname ≠ [])
    (h : t.lookup (lookupName chname) = some p) (now : Int) :
    getOrCreateChannel t chname now = (t, some (p, false)) := by
  unfold getOrCreateChannel
  rw [if_neg hne, h]

theorem getOrCreateChannel_new {t : Table} {chname : Bytes} (hne : chname ≠ [])
    (h : t.lookup (lookupName chname) = none) (now : Int) :
    getOrCreateChannel t chname now = (t.add (lookupName chname) now, some (t.next, true)) := by
  unfold getOrCreateChannel
  rw [if_neg hne, h]

/-- A channel that it returns was there, or is made now. -/
theorem getOrCreateChannel_some {t t' : Table} {chname : Bytes} {now : Int} {p : Nat} {isnew : Bool}
    (h : getOrCreateChannel t chname now = (t', some (p, isnew))) :
    (t.lookup (lookupName chname) = some p ∧ isnew = false ∧ t' = t) ∨
      (t.lookup (lookupName chname) = none ∧ isnew = true ∧ p = t.next ∧
        t' = t.add (lookupName chname) now) := by
  by_cases hne : chname = []
  · rw [getOrCreateChannel, if_pos hne] at h
    cases h
  · cases hlook : t.lookup (lookupName chname) with
    | some q =>
      rw [getOrCreateChannel_found hne hlook] at h
      cases h
      exact Or.inl ⟨rfl, rfl, rfl⟩
    | none =>
      rw [getOrCreateChannel_new hne hlook] at h
      cases h
      exact Or.inr ⟨rfl, rfl, rfl, rfl⟩

/-- It leaves the table alone, or adds a channel that was not found. -/
theorem getOrCreateChannel_fst (t : Table) (chname : Bytes) (now : Int) :
    (getOrCreateChannel t chname now).1 = t ∨
      (t.lookup (lookupName chname) = none ∧
        (getOrCreateChannel t chname now).1 = t.add (lookupName chname) now) := by
  by_cases hne : chname = []
  · rw [getOrCreateChannel, if_pos hne]
    exact Or.inl rfl
  · cases hlook : t.lookup (lookupName chname) with
    | some q => exact Or.inl (by rw [getOrCreateChannel_found hne hlook])
    | none => exact Or.inr ⟨rfl, by rw [getOrCreateChannel_new hne hlook]⟩

/-- `destroy_channel`. -/
def destroyChannel (t : Table) (p : Nat) : Table :=
  let h := hashChannel (t.chan p).chname
  { t with globalChannelList := t.globalChannelList.erase p
           channelTable := Function.update t.channelTable h ((t.channelTable h).erase p) }

-- ============================================================================
-- The invariant
-- ============================================================================

/-- The buckets hold exactly the listed channels, each under the hash of its
    name, and names are non-empty strings shorter than `CHANNELLEN`. -/
structure TableOk (t : Table) : Prop where
  nodup : t.globalChannelList.Nodup
  allocated : ∀ p ∈ t.globalChannelList, p < t.next
  bucket_nodup : ∀ h, (t.channelTable h).Nodup
  mem_bucket : ∀ h p, p ∈ t.channelTable h ↔
    p ∈ t.globalChannelList ∧ hashChannel (t.chan p).chname = h
  noNul : ∀ p ∈ t.globalChannelList, NoNul (t.chan p).chname
  length_lt : ∀ p ∈ t.globalChannelList, (t.chan p).chname.length < channelLen

/-- No two listed channels have equal names. -/
def NamesUnique (t : Table) : Prop :=
  t.globalChannelList.Pairwise fun p q => irccmp (t.chan p).chname (t.chan q).chname ≠ 0

theorem tableOk_start : TableOk Table.start where
  nodup := List.nodup_nil
  allocated _ h := absurd h List.not_mem_nil
  bucket_nodup _ := List.nodup_nil
  mem_bucket _ _ := by simp [Table.start]
  noNul _ h := absurd h List.not_mem_nil
  length_lt _ h := absurd h List.not_mem_nil

/-- The hash only reads the first 30 bytes, which the stored name keeps. -/
theorem hashChannel_stored (s : Bytes) : hashChannel (strlcpy s channelLen) = hashChannel s := by
  apply hashChannel_congr
  rw [strlcpy, List.take_take]
  rfl

/-- Names that compare equal have one hash. -/
theorem hashChannel_of_irccmp {s t : Bytes} (hs : NoNul s) (ht : NoNul t)
    (h : irccmp s t = 0) : hashChannel s = hashChannel t := by
  have hmap := (irccmp_eq_zero_iff hs ht).mp h
  apply hashChannel_congr
  rw [List.map_take, List.map_take, hmap]

section Ok

variable {t : Table}

theorem lookupName_noNul {chname : Bytes} (h : NoNul chname) : NoNul (lookupName chname) := by
  unfold lookupName
  split
  · exact h.take _
  · exact h

theorem lookupName_of_lt {chname : Bytes} (h : chname.length < channelLen) :
    lookupName chname = chname := by
  unfold lookupName
  rw [if_neg (by omega)]

theorem lookupName_length {chname : Bytes} (h : channelLen ≤ chname.length) :
    (lookupName chname).length = channelLen := by
  unfold lookupName
  split
  · rw [List.length_take]
    omega
  · omega

theorem Table.lookup_some {s : Bytes} {p : Nat} (h : TableOk t) (hp : t.lookup s = some p) :
    p ∈ t.globalChannelList ∧ irccmp s (t.chan p).chname = 0 := by
  have hmem := List.mem_of_find?_eq_some hp
  have heq := List.find?_some hp
  exact ⟨((h.mem_bucket _ _).mp hmem).1, by simpa using heq⟩

/-- A listed channel with an equal name is found. -/
theorem Table.lookup_none {s : Bytes} (h : TableOk t) (hs : NoNul s) (hn : t.lookup s = none) :
    ∀ p ∈ t.globalChannelList, irccmp s (t.chan p).chname ≠ 0 := by
  intro p hp heq
  have hhash := hashChannel_of_irccmp hs (h.noNul p hp) heq
  have hmem : p ∈ t.channelTable (hashChannel s) := (h.mem_bucket _ _).mpr ⟨hp, hhash.symm⟩
  have hno := List.find?_eq_none.mp hn p hmem
  simp [heq] at hno

/-- The only channel with an equal name is the one found. -/
theorem Table.lookup_eq {s : Bytes} {p : Nat} (h : TableOk t) (hs : NoNul s)
    (hp : p ∈ t.globalChannelList) (heq : irccmp s (t.chan p).chname = 0)
    (honly : ∀ q ∈ t.globalChannelList, irccmp s (t.chan q).chname = 0 → q = p) :
    t.lookup s = some p := by
  cases hl : t.lookup s with
  | none => exact absurd heq (Table.lookup_none h hs hl p hp)
  | some q =>
    obtain ⟨hq, hqe⟩ := Table.lookup_some h hl
    rw [honly q hq hqe]

/-- A name as long as `CHANNELLEN` is never found: what is stored is shorter. -/
theorem Table.lookup_long {s : Bytes} (h : TableOk t) (hs : NoNul s)
    (hlen : channelLen ≤ s.length) : t.lookup s = none := by
  cases hl : t.lookup s with
  | none => rfl
  | some p =>
    obtain ⟨hp, heq⟩ := Table.lookup_some h hl
    have hmap := congrArg List.length ((irccmp_eq_zero_iff hs (h.noNul p hp)).mp heq)
    have hlt := h.length_lt p hp
    rw [List.length_map, List.length_map] at hmap
    omega

theorem TableOk.add (h : TableOk t) {s : Bytes} (hs : NoNul s) (now : Int) :
    TableOk (t.add s now) := by
  have hold : ∀ p ∈ t.globalChannelList, p ≠ t.next := fun p hp =>
    Nat.ne_of_lt (h.allocated p hp)
  have hnot : t.next ∉ t.globalChannelList := fun hp => hold _ hp rfl
  have hchan : ∀ p ∈ t.globalChannelList, (t.add s now).chan p = t.chan p := fun p hp => by
    simp [Table.add, hold p hp]
  have hnew : (t.add s now).chan t.next = allocateChannel s now := t.chan_add s now
  have hname : (allocateChannel s now).chname = strlcpy s channelLen := rfl
  refine ⟨?_, ?_, ?_, ?_, ?_, ?_⟩
  · exact List.nodup_cons.mpr ⟨hnot, h.nodup⟩
  · intro p hp
    rcases List.mem_cons.mp hp with rfl | hp
    · exact Nat.lt_succ_self _
    · exact Nat.lt_succ_of_lt (h.allocated p hp)
  · intro k
    simp only [Table.add]
    by_cases hk : k = hashChannel s
    · subst hk
      rw [Function.update_self]
      refine List.nodup_cons.mpr ⟨fun hp => hnot ((h.mem_bucket _ _).mp hp).1, h.bucket_nodup _⟩
    · rw [Function.update_of_ne hk]
      exact h.bucket_nodup k
  · intro k p
    show p ∈ Function.update t.channelTable (hashChannel s)
      (t.next :: t.channelTable (hashChannel s)) k ↔ p ∈ t.next :: t.globalChannelList ∧ _
    rw [List.mem_cons]
    by_cases hp : p = t.next
    · subst hp
      rw [hnew, hname, hashChannel_stored]
      by_cases hk : k = hashChannel s
      · subst hk
        simp
      · rw [Function.update_of_ne hk, h.mem_bucket]
        constructor
        · intro hmem; exact absurd hmem.1 hnot
        · intro hmem; exact absurd hmem.2.symm hk
    · by_cases hk : k = hashChannel s
      · subst hk
        rw [Function.update_self, List.mem_cons, h.mem_bucket]
        constructor
        · rintro (he | ⟨hmem, hhash⟩)
          · exact absurd he hp
          · exact ⟨Or.inr hmem, by rw [hchan p hmem]; exact hhash⟩
        · rintro ⟨he | hmem, hhash⟩
          · exact absurd he hp
          · exact Or.inr ⟨hmem, by rw [← hchan p hmem]; exact hhash⟩
      · rw [Function.update_of_ne hk, h.mem_bucket]
        constructor
        · rintro ⟨hmem, hhash⟩
          exact ⟨Or.inr hmem, by rw [hchan p hmem]; exact hhash⟩
        · rintro ⟨he | hmem, hhash⟩
          · exact absurd he hp
          · exact ⟨hmem, by rw [← hchan p hmem]; exact hhash⟩
  · intro p hp
    rcases List.mem_cons.mp hp with rfl | hp
    · rw [hnew, hname]
      exact hs.take _
    · rw [hchan p hp]
      exact h.noNul p hp
  · intro p hp
    rcases List.mem_cons.mp hp with rfl | hp
    · rw [hnew, hname]
      exact strlcpy_length_lt s (by decide)
    · rw [hchan p hp]
      exact h.length_lt p hp

/-- A new channel, if its name was stored whole, is the only one with that name. -/
theorem Table.only_add (h : TableOk t) {s : Bytes} (hs : NoNul s) (hlen : s.length < channelLen)
    (hn : t.lookup s = none) (now : Int) {name : Bytes} (hname : irccmp name s = 0)
    (hnul : NoNul name) :
    irccmp name ((t.add s now).chan t.next).chname = 0 ∧
      ∀ q ∈ (t.add s now).globalChannelList,
        irccmp name ((t.add s now).chan q).chname = 0 → q = t.next := by
  have hnew : ((t.add s now).chan t.next).chname = s := by
    simp [Table.add, allocateChannel, strlcpy_of_lt hlen]
  refine ⟨by rw [hnew]; exact hname, fun q hq heq => ?_⟩
  rcases List.mem_cons.mp hq with rfl | hq
  · rfl
  · have hold : (t.add s now).chan q = t.chan q := by
      simp [Table.add, Nat.ne_of_lt (h.allocated q hq)]
    rw [hold] at heq
    have hequal := irccmp_eq_zero_trans hs hnul (h.noNul q hq) ((irccmp_eq_zero_comm _ _).mp hname) heq
    exact absurd hequal (Table.lookup_none h hs hn q hq)

/-- A new channel is found under every name that compares equal. -/
theorem Table.lookup_add (h : TableOk t) {s : Bytes} (hs : NoNul s) (hlen : s.length < channelLen)
    (hn : t.lookup s = none) (now : Int) {name : Bytes} (hname : irccmp name s = 0)
    (hnul : NoNul name) : (t.add s now).lookup name = some t.next := by
  obtain ⟨heq, honly⟩ := Table.only_add h hs hlen hn now hname hnul
  exact Table.lookup_eq (h.add hs now) hnul List.mem_cons_self heq honly

/-- A name that was not found and is short enough to be stored whole is new. -/
theorem NamesUnique.add (hu : NamesUnique t) (h : TableOk t) {s : Bytes} (hs : NoNul s)
    (hlen : s.length < channelLen) (hn : t.lookup s = none) (now : Int) :
    NamesUnique (t.add s now) := by
  have hold : ∀ p ∈ t.globalChannelList, (t.add s now).chan p = t.chan p := fun p hp => by
    simp [Table.add, Nat.ne_of_lt (h.allocated p hp)]
  have hnew : ((t.add s now).chan t.next).chname = s := by
    simp [Table.add, allocateChannel, strlcpy_of_lt hlen]
  refine List.pairwise_cons.mpr ⟨?_, ?_⟩
  · intro p hp
    rw [hnew, hold p hp]
    exact Table.lookup_none h hs hn p hp
  · refine List.Pairwise.imp_of_mem ?_ hu
    intro p q hp hq hpq
    rw [hold p hp, hold q hq]
    exact hpq

theorem TableOk.destroy (h : TableOk t) {p : Nat} : TableOk (destroyChannel t p) := by
  have hsub : ∀ q ∈ (destroyChannel t p).globalChannelList, q ∈ t.globalChannelList :=
    fun q hq => List.mem_of_mem_erase hq
  refine ⟨h.nodup.erase p, fun q hq => h.allocated q (hsub q hq), ?_, ?_,
    fun q hq => h.noNul q (hsub q hq), fun q hq => h.length_lt q (hsub q hq)⟩
  · intro k
    simp only [destroyChannel]
    by_cases hk : k = hashChannel (t.chan p).chname
    · subst hk
      rw [Function.update_self]
      exact (h.bucket_nodup _).erase p
    · rw [Function.update_of_ne hk]
      exact h.bucket_nodup k
  · intro k q
    show q ∈ Function.update t.channelTable (hashChannel (t.chan p).chname) _ k
      ↔ q ∈ t.globalChannelList.erase p ∧ hashChannel (t.chan q).chname = k
    rw [h.nodup.mem_erase_iff]
    by_cases hk : k = hashChannel (t.chan p).chname
    · subst hk
      rw [Function.update_self, (h.bucket_nodup _).mem_erase_iff, h.mem_bucket, and_assoc]
    · rw [Function.update_of_ne hk, h.mem_bucket]
      constructor
      · rintro ⟨hmem, hhash⟩
        refine ⟨⟨?_, hmem⟩, hhash⟩
        rintro rfl
        exact hk hhash.symm
      · rintro ⟨⟨-, hmem⟩, hhash⟩
        exact ⟨hmem, hhash⟩

theorem NamesUnique.destroy (hu : NamesUnique t) {p : Nat} : NamesUnique (destroyChannel t p) :=
  List.Pairwise.sublist List.erase_sublist hu

theorem TableOk.getOrCreate (h : TableOk t) {chname : Bytes} (hs : NoNul chname) (now : Int) :
    TableOk (getOrCreateChannel t chname now).1 := by
  obtain heq | ⟨-, heq⟩ := getOrCreateChannel_fst t chname now
  · rw [heq]
    exact h
  · rw [heq]
    exact h.add (lookupName_noNul hs) now

theorem NamesUnique.getOrCreate (hu : NamesUnique t) (h : TableOk t) {chname : Bytes}
    (hs : NoNul chname) (hlen : chname.length < channelLen) (now : Int) :
    NamesUnique (getOrCreateChannel t chname now).1 := by
  obtain heq | ⟨hnone, heq⟩ := getOrCreateChannel_fst t chname now
  · rw [heq]
    exact hu
  · rw [heq]
    rw [lookupName_of_lt hlen] at hnone ⊢
    exact hu.add h hs hlen hnone now

end Ok

-- ============================================================================
-- Whole runs
-- ============================================================================

/-- A call on the table. -/
inductive TableOp
  | getOrCreate (chname : CStr) (now : Int)
  | destroy (p : Nat)

/-- Run one call; only a listed channel can be destroyed. -/
def TableOp.step (t : Table) : TableOp → Option Table
  | .getOrCreate chname now => some (getOrCreateChannel t chname.bytes now).1
  | .destroy p => if p ∈ t.globalChannelList then some (destroyChannel t p) else none

/-- The names asked for are shorter than `CHANNELLEN`. -/
def TableOp.Short : TableOp → Prop
  | .getOrCreate chname _ => chname.bytes.length < channelLen
  | .destroy _ => True

/-- Asking twice gives the same channel, which is not new the second time. -/
def FoundAgain (t : Table) (chname : Bytes) (now now' : Int) : Prop :=
  let r := getOrCreateChannel t chname now
  ∃ p isnew, r.2 = some (p, isnew) ∧ (getOrCreateChannel r.1 chname now').2 = some (p, false)

theorem foundAgain_of_short {t : Table} (h : TableOk t) {chname : Bytes}
    (hs : NoNul chname) (hne : chname ≠ []) (hlen : chname.length < channelLen) (now now' : Int) :
    FoundAgain t chname now now' := by
  unfold FoundAgain getOrCreateChannel
  rw [lookupName_of_lt hlen]
  simp only [if_neg hne]
  cases hl : t.lookup chname with
  | some p => exact ⟨p, false, rfl, by simp only [hl]⟩
  | none =>
    have hfound := Table.lookup_add h hs hlen hl now (irccmp_self chname) hs
    exact ⟨t.next, true, rfl, by simp only [hfound]⟩

theorem not_foundAgain_of_long {t : Table} (h : TableOk t) {chname : Bytes} (hs : NoNul chname)
    (hlen : channelLen ≤ chname.length) (now now' : Int) : ¬ FoundAgain t chname now now' := by
  have hne : chname ≠ [] := by
    rintro rfl
    exact absurd hlen (by decide)
  have hlook : ∀ {t : Table}, TableOk t → t.lookup (lookupName chname) = none := fun h =>
    Table.lookup_long h (lookupName_noNul hs) (Nat.le_of_eq (lookupName_length hlen).symm)
  rintro ⟨p, isnew, -, hagain⟩
  have hok := h.getOrCreate hs now
  generalize (getOrCreateChannel t chname now).1 = t' at hagain hok
  rw [getOrCreateChannel_new hne (hlook hok)] at hagain
  cases hagain

/-- In every run that asks only for names shorter than `CHANNELLEN`: names are
    unique in every state reached, and a name is found again exactly when it is
    not empty and shorter than that too. -/
theorem unique_names_of_short_run {t : Table}
    (h : Reach TableOp.step (fun _ op => op.Short) Table.start t) :
    NamesUnique t ∧ ∀ (chname : CStr) (now now' : Int),
      FoundAgain t chname.bytes now now'
        ↔ chname.bytes ≠ [] ∧ chname.bytes.length < channelLen := by
  have hinv : TableOk t ∧ NamesUnique t := by
    refine h.invariant (P := fun t => TableOk t ∧ NamesUnique t)
      ⟨tableOk_start, List.Pairwise.nil⟩ ?_
    rintro s op s' ⟨hok, hu⟩ hshort hs
    cases op with
    | getOrCreate chname now =>
      obtain rfl := Option.some.inj hs
      exact ⟨hok.getOrCreate chname.noNul now, hu.getOrCreate hok chname.noNul hshort now⟩
    | destroy p =>
      simp only [TableOp.step] at hs
      split at hs
      · obtain rfl := Option.some.inj hs
        exact ⟨hok.destroy, hu.destroy⟩
      · cases hs
  refine ⟨hinv.2, fun chname now now' => ⟨fun hfound => ?_, fun hname => ?_⟩⟩
  · by_contra hnot
    rw [not_and_or, not_not, Nat.not_lt] at hnot
    rcases hnot with hnil | hlong
    · obtain ⟨p, isnew, hr, -⟩ := hfound
      rw [getOrCreateChannel, if_pos hnil] at hr
      cases hr
    · exact not_foundAgain_of_long hinv.1 chname.noNul hlong now now' hfound
  · exact foundAgain_of_short hinv.1 chname.noNul hname.1 hname.2 now now'

/-- The name of 200 bytes `#aaa...`. -/
def longName : CStr := ⟨35 :: List.replicate 199 97, by decide⟩

/-- Two names in a run that meets the condition. -/
theorem unique_names_after_two :
    let t := (getOrCreateChannel (getOrCreateChannel Table.start [35, 97] 10).1 [35, 65] 20).1
    NamesUnique t ∧ t.globalChannelList = [0] := by
  refine ⟨(unique_names_of_short_run ?_).1, by decide +kernel⟩
  exact Reach.next (a := .getOrCreate ⟨[35, 65], by decide⟩ 20)
    (Reach.next (a := .getOrCreate ⟨[35, 97], by decide⟩ 10) Reach.init
      (show 2 < channelLen by decide) rfl)
    (show 2 < channelLen by decide) rfl

/-- A name of 200 bytes makes a second channel, and is new again. -/
theorem not_unique_after_long_name :
    ¬ ∀ t, Reach TableOp.step anyStep Table.start t →
      NamesUnique t ∧ ∀ (chname : CStr) (now now' : Int), chname.bytes ≠ [] →
        FoundAgain t chname.bytes now now' := by
  intro h
  have hreach : Reach TableOp.step anyStep Table.start
      (getOrCreateChannel (getOrCreateChannel Table.start longName.bytes 10).1 longName.bytes 20).1 :=
    Reach.next (a := .getOrCreate longName 20)
      (Reach.next (a := .getOrCreate longName 10) Reach.init trivial rfl) trivial rfl
  have hu := (h _ hreach).1
  revert hu
  unfold NamesUnique
  decide +kernel

end Bluebox.Chan
