/-
  Bluebox.Hash

  The hash tables for clients, IDs, channels, host names and reserved names
  (`libratboxcore/hash.c`).

  A string is added under the functions of the array `hash_function`, and looked up under
  the macros `hash_nick`, `hash_id` and so on.  All but that for IDs fold case.  The last
  line of each function is meant to fold 32 bits to the size of the table, but `2 ^ bits` is
  an exclusive or: what it masks with has six bits at most.
-/
import Bluebox.Channel.Table

namespace Bluebox.Hash

open Bluebox.Lib
open Bluebox.Chan (fnvStep fnvHashUpperLen hashChannel)

-- ============================================================================
-- Hash functions
-- ============================================================================

/-- The last line of the hash functions. -/
def fnvFold (h bits : UInt32) : UInt32 :=
  let bits := 32 - bits
  (h >>> bits) ^^^ (h &&& ((2 ^^^ bits) - 1))

/-- `fnv_hash_upper`. -/
def fnvHashUpper (s : Bytes) (bits : UInt32) (_unused : Nat) : UInt32 :=
  fnvFold ((s.map toUpper).foldl fnvStep 0x811c9dc5) bits

/-- `fnv_hash`. -/
def fnvHash (s : Bytes) (bits : UInt32) (_unused : Nat) : UInt32 :=
  fnvFold (s.foldl fnvStep 0x811c9dc5) bits

/-- `U_MAX_BITS`. -/
def uMaxBits : UInt32 := 17

/-- `CH_MAX_BITS`. -/
def chMaxBits : UInt32 := 16

/-- `HOST_MAX_BITS`. -/
def hostMaxBits : UInt32 := 17

/-- `R_MAX_BITS`. -/
def rMaxBits : UInt32 := 10

/-- `hash_nick`. -/
def hashNick (s : Bytes) : UInt32 := fnvHashUpper s uMaxBits 0

/-- `hash_id`. -/
def hashId (s : Bytes) : UInt32 := fnvHash s uMaxBits 0

/-- `hash_hostname`. -/
def hashHostname (s : Bytes) : UInt32 := fnvHashUpperLen s hostMaxBits 30

/-- `hash_resv`. -/
def hashResv (s : Bytes) : UInt32 := fnvHashUpperLen s rMaxBits 30

-- ============================================================================
-- Tables
-- ============================================================================

/-- `hash_type`. -/
inductive HashType
  | client
  | id
  | channel
  | hostname
  | resv
deriving DecidableEq, Repr

/-- An entry of `hash_function`. -/
structure HashFunction where
  func : Bytes → UInt32 → Nat → UInt32
  hashbits : UInt32
  hashlen : Nat

/-- `hash_function`. -/
def hashFunction : HashType → HashFunction
  | .client => ⟨fnvHashUpper, uMaxBits, 0⟩
  | .id => ⟨fnvHash, uMaxBits, 0⟩
  | .channel => ⟨fnvHashUpperLen, chMaxBits, 30⟩
  | .hostname => ⟨fnvHashUpperLen, hostMaxBits, 30⟩
  | .resv => ⟨fnvHashUpperLen, rMaxBits, 30⟩

/-- The size of a table: `U_MAX`, `CH_MAX`, `HOST_MAX` and `R_MAX`. -/
def tableSize : HashType → Nat
  | .client => 2 ^ uMaxBits.toNat
  | .id => 2 ^ uMaxBits.toNat
  | .channel => 2 ^ chMaxBits.toNat
  | .hostname => 2 ^ hostMaxBits.toNat
  | .resv => 2 ^ rMaxBits.toNat

/-- The tables: their buckets hold pointers, what was added last in front. -/
@[ext]
structure Tables where
  table : HashType → List (List Nat)
  sized : ∀ t, (table t).length = tableSize t

/-- Write to a bucket. -/
def Tables.modify (b : Tables) (type : HashType) (hashv : UInt32) (f : List Nat → List Nat) : Tables where
  table t := if t = type then (b.table t).modify hashv.toNat f else b.table t
  sized t := by
    split
    · rw [List.length_modify]
      exact b.sized t
    · exact b.sized t

/-- The bucket that `add_to_hash` and `del_from_hash` go to. -/
def hashOf (type : HashType) (hashindex : Bytes) : UInt32 :=
  (hashFunction type).func hashindex (hashFunction type).hashbits (hashFunction type).hashlen

/-- `add_to_hash`. -/
def addToHash (b : Tables) (type : HashType) (hashindex : Bytes) (pointer : Nat) : Tables :=
  if hashindex = [] then b else b.modify type (hashOf type hashindex) (pointer :: ·)

/-- `del_from_hash`. -/
def delFromHash (b : Tables) (type : HashType) (hashindex : Bytes) (pointer : Nat) : Tables :=
  if hashindex = [] then b else b.modify type (hashOf type hashindex) (·.erase pointer)

/-- The bucket that `find_named_client`, `find_id`, `find_channel`, `find_hostname` and
    `hash_find_resv` walk through. -/
def probe (type : HashType) (name : Bytes) : UInt32 :=
  match type with
  | .client => hashNick name
  | .id => hashId name
  | .channel => hashChannel name
  | .hostname => hashHostname name
  | .resv => hashResv name

/-- What is added under a string is looked for under it in the same bucket. -/
theorem probe_eq_hashOf (type : HashType) (name : Bytes) : probe type name = hashOf type name := by
  cases type <;> rfl

-- ============================================================================
-- Sizes
-- ============================================================================

/-- The bits that are left and those of the mask. -/
theorem fnvFold_lt (h bits : UInt32) (hpos : 0 < bits.toNat) (hlt : bits.toNat < 32)
    (hmask : ((2 ^^^ (32 - bits)) - 1).toNat < 2 ^ bits.toNat) : (fnvFold h bits).toNat < 2 ^ bits.toNat := by
  have hsub : (32 - bits).toNat = 32 - bits.toNat := by
    rw [UInt32.toNat_sub_of_le]
    · rfl
    · exact UInt32.le_iff_toNat_le.mpr (Nat.le_of_lt hlt)
  have hshift : (h >>> (32 - bits)).toNat < 2 ^ bits.toNat := by
    rw [UInt32.toNat_shiftRight, hsub, Nat.mod_eq_of_lt (by omega), Nat.shiftRight_eq_div_pow,
      Nat.div_lt_iff_lt_mul (Nat.two_pow_pos _), ← Nat.pow_add,
      show bits.toNat + (32 - bits.toNat) = 32 by omega]
    exact h.toNat_lt
  unfold fnvFold
  dsimp only
  rw [UInt32.toNat_xor, UInt32.toNat_and]
  exact Nat.xor_lt_two_pow hshift (Nat.and_lt_two_pow _ hmask)

theorem hashOf_lt (type : HashType) (s : Bytes) : (hashOf type s).toNat < tableSize type := by
  cases type with
  | client => exact fnvFold_lt _ _ (by decide) (by decide) (by decide)
  | id => exact fnvFold_lt _ _ (by decide) (by decide) (by decide)
  | channel => exact fnvFold_lt _ chMaxBits (by decide) (by decide) (by decide)
  | hostname => exact fnvFold_lt _ hostMaxBits (by decide) (by decide) (by decide)
  | resv => exact fnvFold_lt _ rMaxBits (by decide) (by decide) (by decide)

-- ============================================================================
-- Case
-- ============================================================================

theorem fnvHashUpper_congr {a b : Bytes} (h : a.map toUpper = b.map toUpper) (bits : UInt32) (unused : Nat) :
    fnvHashUpper a bits unused = fnvHashUpper b bits unused := by
  unfold fnvHashUpper
  rw [h]

/-- The prefix is cut off before case is folded, at the same place in both. -/
theorem fnvHashUpperLen_congr {a b : Bytes} (h : a.map toUpper = b.map toUpper) (bits : UInt32) (len : Nat) :
    fnvHashUpperLen a bits len = fnvHashUpperLen b bits len := by
  have htake : (a.take len).map toUpper = (b.take len).map toUpper := by
    rw [List.map_take, List.map_take, h]
  unfold fnvHashUpperLen
  rw [htake]

/-- All hashes but that of IDs read a string with its case folded. -/
theorem hashOf_congr {type : HashType} (htype : type ≠ .id) {a b : Bytes} (h : a.map toUpper = b.map toUpper) :
    hashOf type a = hashOf type b := by
  cases type with
  | id => exact absurd rfl htype
  | client => exact fnvHashUpper_congr h uMaxBits 0
  | channel => exact fnvHashUpperLen_congr h _ _
  | hostname => exact fnvHashUpperLen_congr h _ _
  | resv => exact fnvHashUpperLen_congr h _ _

/-- The bucket that was written to. -/
theorem getElem?_modify (b : Tables) (type : HashType) (hashv : UInt32) (f : List Nat → List Nat) :
    ((b.modify type hashv f).table type)[hashv.toNat]? = ((b.table type)[hashv.toNat]?).map f := by
  unfold Tables.modify
  dsimp only
  rw [if_pos rfl, List.getElem?_modify_eq]
  rfl

/-- An entry is taken out again under any name like the one it was added under. -/
theorem delFromHash_addToHash (tables : Tables) {type : HashType} (htype : type ≠ .id) {a b : Bytes}
    (h : a.map toUpper = b.map toUpper) (pointer : Nat) :
    delFromHash (addToHash tables type a pointer) type b pointer = tables := by
  have hlen : a.length = b.length := by
    have hmap := congrArg List.length h
    rwa [List.length_map, List.length_map] at hmap
  unfold delFromHash addToHash
  by_cases hnil : b = []
  · rw [if_pos hnil, if_pos (List.length_eq_zero_iff.mp (hlen.trans (congrArg List.length hnil)))]
  · have hne : a ≠ [] := fun ha => hnil (List.length_eq_zero_iff.mp (hlen.symm.trans (congrArg List.length ha)))
    rw [if_neg hnil, if_neg hne, hashOf_congr htype h]
    ext1
    funext t
    unfold Tables.modify
    dsimp only
    by_cases ht : t = type
    · rw [if_pos ht, if_pos ht, List.modify_modify_eq]
      have hback : ((·.erase pointer) ∘ (pointer :: ·) : List Nat → List Nat) = id :=
        funext fun l => List.erase_cons_head pointer l
      rw [hback, List.modify_id]
    · rw [if_neg ht, if_neg ht]

/-- The values that the source needs: equal for names that compare equal, and indices of the
    tables; what was added under a name is in the bucket of each name like it. -/
structure Consistent (a b : CStr) : Prop where
  nick : irccmp a.bytes b.bytes = 0 → hashNick a.bytes = hashNick b.bytes
  channel : irccmp a.bytes b.bytes = 0 → hashChannel a.bytes = hashChannel b.bytes
  hostname : irccmp a.bytes b.bytes = 0 → hashHostname a.bytes = hashHostname b.bytes
  resv : irccmp a.bytes b.bytes = 0 → hashResv a.bytes = hashResv b.bytes
  inTable : ∀ type, (probe type a.bytes).toNat < tableSize type
  found : ∀ (tables : Tables) (type : HashType) (pointer : Nat), type ≠ .id → a.bytes ≠ [] →
    irccmp a.bytes b.bytes = 0 →
    ∃ bucket, ((addToHash tables type a.bytes pointer).table type)[(probe type b.bytes).toNat]? = some bucket ∧
      pointer ∈ bucket

/-- Hashing agrees with the comparison, and no hash is outside of its table. -/
theorem hash_consistent (a b : CStr) : Consistent a b := by
  have hprobe : ∀ type, type ≠ .id → irccmp a.bytes b.bytes = 0 → probe type a.bytes = probe type b.bytes := by
    intro type htype h
    rw [probe_eq_hashOf, probe_eq_hashOf]
    exact hashOf_congr htype ((irccmp_eq_zero_iff a.noNul b.noNul).mp h)
  refine ⟨hprobe .client (by decide), hprobe .channel (by decide), hprobe .hostname (by decide),
    hprobe .resv (by decide), ?_, ?_⟩
  · intro type
    rw [probe_eq_hashOf]
    exact hashOf_lt type a.bytes
  · intro tables type pointer htype hne h
    have hlt : (hashOf type a.bytes).toNat < (tables.table type).length := by
      rw [tables.sized type]
      exact hashOf_lt type a.bytes
    rw [← hprobe type htype h, probe_eq_hashOf, addToHash, if_neg hne, getElem?_modify,
      List.getElem?_eq_getElem hlt]
    exact ⟨_, rfl, List.mem_cons_self⟩

end Bluebox.Hash
