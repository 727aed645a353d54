/-
  Bluebox.Atable.Lookup

  The table of address masks as a list: `find_conf_by_address` finds a record if and
  only if a scan of everything that was added and not deleted finds one.

  A record is in the chain that its mask hashes to, an address mask by its length
  rounded down, a mask of names by what follows the first dot behind its last wildcard.
  A lookup probes a few chains; those of all masks that match are among them.
-/
import Mathlib.Data.List.Forall2
import Bluebox.Lib.Buckets
import Bluebox.Atable
import Bluebox.Glob.Match

namespace Bluebox.Lookup

open Bluebox.Lib

-- ============================================================================
-- Operations and queries
-- ============================================================================

/-- What `add_conf_by_address` takes for no address: `/NOMATCH!/`. -/
def noMatch : Bytes := [47, 78, 79, 77, 65, 84, 67, 72, 33, 47]

/-- The chain in which `delete_one_address_conf` looks. -/
def chainOf (pton : Bytes → Option IpAddr) (address : Bytes) : Nat :=
  match parseNetmask pton address with
  | some mask =>
    if mask.v6 then hashIpv6 mask.addr (mask.bits - Int.tmod mask.bits 16).toNat
    else hashIpv4 mask.addr (mask.bits - Int.tmod mask.bits 8).toNat
  | none => getMaskHash address

/-- A call that changes the table. -/
inductive Op (α : Type)
  | add (address : Option Bytes) (type : RecType) (username : Option Bytes) (conf : α)
  | delete (address : Bytes) (conf : α)

/-- The arguments of `find_conf_by_address`, without `sockhost`. -/
structure Query where
  name : Option Bytes
  addr : Option IpAddr
  type : RecType
  username : Option Bytes

variable {α : Type} [DecidableEq α] (pton : Bytes → Option IpAddr)

/-- `delete_one_address_conf`. -/
def deleteOneAddressConf (t : Atable α) (address : Bytes) (conf : α) : Atable α :=
  let hv := chainOf pton address
  Function.update t hv ((t hv).eraseP fun r => decide (r.conf = conf))

/-- A call. -/
def Op.step (t : Atable α) : Op α → Atable α
  | .add address type username conf =>
    addConfByAddress pton t (address.getD noMatch) type (username.getD []) conf
  | .delete address conf => deleteOneAddressConf pton t address conf

/-- The table after some calls; `init_host_hash` empties it. -/
def run (ops : List (Op α)) : Atable α := ops.foldl (Op.step pton) fun _ => []

/-- `find_conf_by_address` without a `sockhost`. -/
def find (t : Atable α) (q : Query) : Option α :=
  let username := q.username.getD []
  let addr := q.addr.map fun addr => (addr.v6, addr)
  match q.name with
  | some name => (findConfByAddress t name none addr q.type username).map AddressRec.conf
  | none => (addr.bind fun a => findByAddr t a.1 a.2 q.type username).map AddressRec.conf

-- ============================================================================
-- The linear scan
-- ============================================================================

/-- What a call does to the list of the records, newest first. -/
def Op.store (l : List (AddressRec α)) : Op α → List (AddressRec α)
  | .add address type username conf =>
    mkAddressRec pton (address.getD noMatch) type (username.getD []) conf :: l
  | .delete address conf =>
    l.eraseP fun r => decide (r.chain = chainOf pton address) && decide (r.conf = conf)

/-- The records that were added and not deleted. -/
def stored (ops : List (Op α)) : List (AddressRec α) := ops.foldl (Op.store pton) []

/-- The block of a mask contains an address. -/
def Contains (mask : Netmask) (addr : IpAddr) : Prop :=
  0 ≤ mask.bits ∧ ∀ i < mask.bits.toNat, addr.bits i = mask.addr.bits i

/-- A record is one for an address: its mask is of the same family and contains it. -/
def ForAddr (r : AddressRec α) (q : Query) : Prop :=
  ∃ mask addr, r.mask = some mask ∧ q.addr = some addr ∧ mask.v6 = addr.v6 ∧ Contains mask addr

/-- A record is one for a name. -/
def ForName (r : AddressRec α) (q : Query) : Prop :=
  ∃ name, r.mask = none ∧ q.name = some name ∧ matchMask r.hostname name = true

/-- A record is what a query asks for. -/
def Matches (r : AddressRec α) (q : Query) : Prop :=
  r.type = q.type ∧ (r.skipUser = true ∨ matchMask r.username (q.username.getD []) = true) ∧
    (ForAddr r q ∨ ForName r q)

-- ============================================================================
-- Addresses that agree in their first bits
-- ============================================================================

section Address

variable {a b : IpAddr}

/-- The first bits of a byte of an address. -/
def top (addr : IpAddr) (n k : Nat) : Nat :=
  (List.range k).foldl (fun v i => 2 * v + if addr.bits (8 * n + i) then 1 else 0) 0

theorem top_succ (n k : Nat) :
    top a n (k + 1) = 2 * top a n k + if a.bits (8 * n + k) then 1 else 0 := by
  rw [top, List.range_succ, List.foldl_append]
  rfl

theorem top_lt (n k : Nat) : top a n k < 2 ^ k := by
  induction k with
  | zero => exact Nat.one_pos
  | succ k ih =>
    rw [top_succ, Nat.pow_succ]
    split <;> omega

theorem top_eq_iff (n k : Nat) :
    top a n k = top b n k ↔ ∀ i < k, a.bits (8 * n + i) = b.bits (8 * n + i) := by
  induction k with
  | zero => exact ⟨fun _ i hi => absurd hi (Nat.not_lt_zero i), fun _ => rfl⟩
  | succ k ih =>
    rw [top_succ, top_succ, Nat.forall_lt_succ_right, ← ih]
    cases a.bits (8 * n + k) <;> cases b.bits (8 * n + k) <;> simp <;> omega

theorem top_div (n k j : Nat) : top a n (k + j) / 2 ^ j = top a n k := by
  induction j with
  | zero => exact Nat.div_one _
  | succ j ih =>
    rw [← Nat.add_assoc, top_succ, Nat.pow_succ', ← Nat.div_div_eq_div_mul, ← ih]
    congr 1
    split <;> omega

theorem byte_eq_iff (n : Nat) :
    a.byte n = b.byte n ↔ ∀ i < 8, a.bits (8 * n + i) = b.bits (8 * n + i) := top_eq_iff n 8

/-- `comp_with_mask` on the bytes, as it compares them: whole ones, and the first bits of
    the next. -/
def compBytes (addr dest : IpAddr) (mask : Nat) : Bool :=
  let n := mask / 8
  let low := 2 ^ (8 - mask % 8)
  ((List.range n).all fun i => addr.byte i == dest.byte i) &&
    (mask % 8 == 0 || addr.byte n - addr.byte n % low == dest.byte n - dest.byte n % low)

theorem sub_mod_eq_iff {x y m : Nat} (hm : 0 < m) : x - x % m = y - y % m ↔ x / m = y / m := by
  have hx := Nat.div_add_mod x m
  have hy := Nat.div_add_mod y m
  constructor
  · intro h
    refine Nat.eq_of_mul_eq_mul_left hm ?_
    omega
  · intro h
    rw [h] at hx
    omega

/-- Comparing bytes is comparing the first bits. -/
theorem compWithMask_eq_compBytes (addr dest : IpAddr) (mask : Nat) :
    addr.compWithMask dest mask = compBytes addr dest mask := by
  have hsub : 0 < 2 ^ (8 - mask % 8) := Nat.two_pow_pos _
  have hrest : addr.byte (mask / 8) / 2 ^ (8 - mask % 8) = dest.byte (mask / 8) / 2 ^ (8 - mask % 8) ↔
      ∀ i < mask % 8, addr.bits (8 * (mask / 8) + i) = dest.bits (8 * (mask / 8) + i) := by
    have hlen : 8 = mask % 8 + (8 - mask % 8) := by omega
    have hdiv : ∀ x : IpAddr, x.byte (mask / 8) / 2 ^ (8 - mask % 8) = top x (mask / 8) (mask % 8) := by
      intro x
      rw [← top_div (a := x) (mask / 8) (mask % 8) (8 - mask % 8), ← hlen]
      rfl
    rw [hdiv, hdiv, top_eq_iff]
  rw [Bool.eq_iff_iff]
  simp only [IpAddr.compWithMask, compBytes, Bool.and_eq_true, decide_eq_true_eq, List.all_eq_true,
    List.mem_range, beq_iff_eq, Bool.or_eq_true, sub_mod_eq_iff hsub, hrest, byte_eq_iff,
    Int.toNat_natCast]
  constructor
  · rintro ⟨-, h⟩
    exact ⟨fun n hn i hi => h _ (by omega), Or.inr fun i hi => h _ (by omega)⟩
  · rintro ⟨hwhole, hpart⟩
    refine ⟨Int.natCast_nonneg mask, fun i hi => ?_⟩
    have hi8 : 8 * (i / 8) + i % 8 = i := Nat.div_add_mod i 8
    by_cases hlast : i / 8 < mask / 8
    · have hbit := hwhole (i / 8) hlast (i % 8) (Nat.mod_lt i (by decide))
      rwa [hi8] at hbit
    · have hsame : i / 8 = mask / 8 := by omega
      rcases hpart with hzero | hpart
      · omega
      · have hbit := hpart (i % 8) (by omega)
        rwa [← hsame, hi8] at hbit

theorem hashIpv4_congr {bits : Nat} (h : ∀ i < bits, a.bits i = b.bits i) :
    hashIpv4 a bits = hashIpv4 b bits := by
  have hstep : (fun (v i : Nat) => 2 * v + if a.bits i && decide (i < bits) then 1 else 0) =
      fun v i => 2 * v + if b.bits i && decide (i < bits) then 1 else 0 := by
    funext v i
    by_cases hi : i < bits
    · rw [h i hi]
    · rw [decide_eq_false hi, Bool.and_false, Bool.and_false]
  unfold hashIpv4
  rw [hstep]

theorem hashIpv6Loop_congr (fuel : Nat) : ∀ {n bits v : Nat}, bits % 8 = 0 →
    (∀ i < 8 * n + bits, a.bits i = b.bits i) →
    hashIpv6Loop a fuel n bits v = hashIpv6Loop b fuel n bits v := by
  induction fuel with
  | zero => exact fun _ _ => rfl
  | succ fuel ih =>
    intro n bits v hbits h
    rw [hashIpv6Loop, hashIpv6Loop]
    by_cases hmore : 8 ≤ bits
    · have hbyte : a.byte n = b.byte n := (byte_eq_iff n).mpr fun i hi => h _ (by omega)
      rw [if_pos hmore, if_pos hmore, hbyte]
      exact ih (by omega) fun i hi => h i (by omega)
    · have hzero : bits = 0 := by omega
      have hlow : ∀ x : IpAddr, x.byte n - x.byte n % 2 ^ (8 - bits) = 0 := by
        intro x
        have hlt : x.byte n < 2 ^ (8 - 0) := top_lt n 8
        rw [hzero, Nat.mod_eq_of_lt hlt, Nat.sub_self]
      rw [if_neg hmore, if_neg hmore, hlow, hlow]

theorem hashIpv6_congr {bits : Nat} (hbits : bits % 8 = 0) (h : ∀ i < bits, a.bits i = b.bits i) :
    hashIpv6 a bits = hashIpv6 b bits :=
  hashIpv6Loop_congr 16 hbits (by rwa [Nat.mul_zero, Nat.zero_add])

end Address

-- ============================================================================
-- The end of a mask and of the names it matches
-- ============================================================================

section Tail

variable {mask name : Bytes}

/-- What follows the last wildcard. -/
def tailOf (mask : Bytes) : Bytes := mask.rtakeWhile fun b => !(b == 42 || b == 63)

theorem tailOf_suffix (mask : Bytes) : tailOf mask <:+ mask := List.rtakeWhile_suffix _ _

theorem literal_of_mem_tailOf {b : UInt8} (h : b ∈ tailOf mask) : b ≠ star ∧ b ≠ quest := by
  have hb := List.mem_rtakeWhile_imp h
  rw [Bool.not_eq_true', Bool.or_eq_false_iff, beq_eq_false_iff_ne, beq_eq_false_iff_ne] at hb
  exact hb

/-- Without wildcards a mask is compared byte by byte. -/
theorem lower_of_inLang {t z : Bytes} (ht : ∀ b ∈ t, b ≠ star ∧ b ≠ quest) (h : Glob.InLang t z) :
    lower z = lower t := by
  induction t generalizing z with
  | nil => exact congrArg lower h
  | cons b t ih =>
    obtain ⟨hstar, hquest⟩ := ht b List.mem_cons_self
    unfold Glob.InLang at h
    rw [List.map_cons, Glob.token_of_ne hstar] at h
    obtain ⟨a, u, rfl, htest, hu⟩ := h
    have hab : toLower b = toLower a := by simpa [hquest] using htest
    rw [lower, lower, List.map_cons, List.map_cons, hab]
    exact congrArg _ (ih (fun x hx => ht x (List.mem_cons_of_mem _ hx)) hu)

/-- A name ends as the masks that match it do. -/
theorem matchMask_ends (h : matchMask mask name = true) :
    ∃ z, z <:+ name ∧ lower z = lower (tailOf mask) ∧ (tailOf mask = mask → z = name) := by
  have hlang := Glob.matchMask_sound h
  obtain ⟨skipped, hmask⟩ := tailOf_suffix mask
  unfold Glob.InLang at hlang
  rw [← hmask, List.map_append, Lib.Glob.denotes_append] at hlang
  obtain ⟨x, z, rfl, hx, hz⟩ := hlang
  refine ⟨z, List.suffix_append x z, lower_of_inLang (fun b => literal_of_mem_tailOf) hz, fun hall => ?_⟩
  have hnil : skipped = [] := List.append_left_eq_self.mp (hmask.trans hall.symm)
  subst hnil
  obtain rfl : x = [] := hx
  rfl

end Tail

-- ============================================================================
-- The chains that are probed
-- ============================================================================

section Probes

variable {mask name s t : Bytes}

theorem hashText_congr (h : lower s = lower t) : hashText s = hashText t := by
  have hfold : ∀ x : Bytes, hashText x =
      ((lower x).foldl (fun (h : UInt32) c => (h <<< 4) - (h + c.toUInt32)) 0).toNat % atableSize := by
    intro x
    rw [lower, List.foldl_map]
    rfl
  rw [hfold, hfold, h]

theorem toLower_eq_dot {b : UInt8} (h : toLower b = 46) : b = 46 := by
  have hall : ∀ x : Fin 256, toLower (UInt8.ofFin x) = 46 → UInt8.ofFin x = 46 := by decide +kernel
  exact hall b.toFin h

theorem mem_afterDots (first rest : Bytes) : rest ∈ afterDots (first ++ 46 :: rest) := by
  induction first with
  | nil => exact List.mem_cons_self
  | cons c first ih =>
    rw [List.cons_append, afterDots]
    split
    · exact List.mem_cons_of_mem _ ih
    · exact ih

theorem getMaskHash_eq (mask : Bytes) : getMaskHash mask =
    if tailOf mask = mask then hashText mask
    else hashText (((tailOf mask).dropWhile (· != 46)).tail) := rfl

/-- The chain of a mask is probed for every name that the mask matches. -/
theorem getMaskHash_probed (h : matchMask mask name = true) :
    getMaskHash mask ∈ (name :: afterDots name).map hashText ∨ getMaskHash mask = 0 := by
  by_cases ht : tailOf mask = []
  · right
    rw [getMaskHash_eq, ht]
    split
    · rename_i hmask
      rw [← hmask]
      rfl
    · rfl
  obtain ⟨z, ⟨first, hz⟩, hlower, hall⟩ := matchMask_ends h
  rw [getMaskHash_eq]
  by_cases hlit : tailOf mask = mask
  · rw [if_pos hlit]
    rw [hall hlit, hlit] at hlower
    exact Or.inl (List.mem_map.mpr ⟨name, List.mem_cons_self, hashText_congr hlower⟩)
  rw [if_neg hlit]
  cases hrest : (tailOf mask).dropWhile (· != 46) with
  | nil => exact Or.inr rfl
  | cons dot p =>
    left
    have hdot : dot = 46 := by
      have hhead := List.head?_dropWhile_not (· != 46) (tailOf mask)
      rw [hrest] at hhead
      simpa using hhead
    subst hdot
    have hsplit : tailOf mask = (tailOf mask).takeWhile (· != 46) ++ 46 :: p := by
      rw [← hrest, List.takeWhile_append_dropWhile]
    rw [hsplit, lower, lower, List.map_append, List.map_cons, List.map_eq_append_iff] at hlower
    obtain ⟨z₁, z₂, rfl, -, hz₂⟩ := hlower
    obtain ⟨d, p', rfl, hd, hp⟩ := List.map_eq_cons_iff.mp hz₂
    obtain rfl := toLower_eq_dot hd
    refine List.mem_map.mpr ⟨p', List.mem_cons_of_mem _ ?_, hashText_congr hp⟩
    rw [← hz, ← List.append_assoc]
    exact mem_afterDots _ _

end Probes

section Table

variable {pton} {l : List (AddressRec α)} {r : AddressRec α} {addr : IpAddr} {type : RecType}
  {username name : Bytes} {sockhost : Option Bytes}

/-- The length of an IPv4 mask. -/
def Sized (r : AddressRec α) : Prop :=
  ∀ mask, r.mask = some mask → mask.v6 = false → mask.bits ≤ 32

omit [DecidableEq α] in
theorem covers_iff : r.covers addr.v6 addr = true ↔
    ∃ mask, r.mask = some mask ∧ mask.v6 = addr.v6 ∧ Contains mask addr := by
  simp [AddressRec.covers, Option.any_eq_true, IpAddr.compWithMask, Contains]

omit [DecidableEq α] in
/-- The chain of an address mask is probed for every address in its block. -/
theorem chain_probed (hsize : Sized r) (h : r.covers addr.v6 addr = true) :
    r.chain ∈ if addr.v6 then [128, 112, 96, 80, 64, 48, 32, 16, 0].map (hashIpv6 addr)
      else [32, 24, 16, 8, 0].map (hashIpv4 addr) := by
  obtain ⟨mask, hmask, hfam, hpos, hbits⟩ := covers_iff.mp h
  have hle := mask.bits_le
  unfold AddressRec.chain
  rw [hmask]
  dsimp only
  rw [hfam]
  cases hv6 : addr.v6 with
  | true =>
    rw [if_pos rfl, if_pos rfl, Int.tmod_eq_emod_of_nonneg hpos]
    have hround : (mask.bits - mask.bits % 16).toNat ≤ mask.bits.toNat := by omega
    rw [← hashIpv6_congr (by omega) fun i hi => hbits i (Nat.lt_of_lt_of_le hi hround)]
    refine List.mem_map_of_mem ?_
    simp only [List.mem_cons, List.not_mem_nil, or_false]
    omega
  | false =>
    have hle' := hsize mask hmask (hfam.trans hv6)
    rw [if_neg Bool.false_ne_true, if_neg Bool.false_ne_true, Int.tmod_eq_emod_of_nonneg hpos]
    have hround : (mask.bits - mask.bits % 8).toNat ≤ mask.bits.toNat := by omega
    rw [← hashIpv4_congr fun i hi => hbits i (Nat.lt_of_lt_of_le hi hround)]
    refine List.mem_map_of_mem ?_
    simp only [List.mem_cons, List.not_mem_nil, or_false]
    omega

omit [DecidableEq α] in
theorem findByAddr_sound
    (h : findByAddr (buckets AddressRec.chain l) addr.v6 addr type username = some r) :
    r ∈ l ∧ r.covers addr.v6 addr = true ∧ r.fits type username = true := by
  obtain ⟨hmem, hp⟩ := mem_of_probe h
  exact ⟨hmem, Bool.and_eq_true_iff.mp hp⟩

omit [DecidableEq α] in
theorem findByAddr_complete (hr : r ∈ l) (hsize : Sized r) (hcovers : r.covers addr.v6 addr = true)
    (hfits : r.fits type username = true) :
    (findByAddr (buckets AddressRec.chain l) addr.v6 addr type username).isSome :=
  probe_isSome hr (chain_probed hsize hcovers) (by rw [hcovers, hfits]; rfl)

omit [DecidableEq α] in
theorem findByName_sound
    (h : findByName (buckets AddressRec.chain l) name sockhost type username = some r) :
    r ∈ l ∧ r.fits type username = true ∧
      (r.names name = true ∨ r.chain = 0 ∧ sockhost.any r.names = true) := by
  unfold findByName at h
  dsimp only at h
  split at h
  · rename_i x hfound
    obtain rfl := Option.some.inj h
    obtain ⟨p, -, hfind⟩ := List.exists_of_findSome?_eq_some hfound
    have hp := List.find?_some hfind
    obtain ⟨hnames, hfits⟩ := Bool.and_eq_true_iff.mp hp
    exact ⟨(mem_buckets.mp (List.mem_of_find?_eq_some hfind)).1, hfits, Or.inl hnames⟩
  · have hp := List.find?_some h
    obtain ⟨hnames, hfits⟩ := Bool.and_eq_true_iff.mp hp
    obtain ⟨hmem, hchain⟩ := mem_buckets.mp (List.mem_of_find?_eq_some h)
    exact ⟨hmem, hfits, (Bool.or_eq_true_iff.mp hnames).imp_right fun hsock => ⟨hchain, hsock⟩⟩

omit [DecidableEq α] in
theorem findByName_complete (hr : r ∈ l) (hnames : r.names name = true)
    (hfits : r.fits type username = true) :
    (findByName (buckets AddressRec.chain l) name sockhost type username).isSome := by
  obtain ⟨hhost, hmatch⟩ := Bool.and_eq_true_iff.mp hnames
  have hchain : r.chain = getMaskHash r.hostname := by
    unfold AddressRec.chain
    rw [Option.isNone_iff_eq_none.mp hhost]
  have hp : (r.names name && r.fits type username) = true := by rw [hnames, hfits]; rfl
  unfold findByName
  dsimp only
  split
  · rfl
  · rename_i hnone
    rcases getMaskHash_probed hmatch with hprobe | hzero
    · rw [← hchain] at hprobe
      have hsome := probe_isSome (p := fun r => r.names name && r.fits type username) hr hprobe hp
      rw [List.findSome?_map] at hsome
      exact absurd (Option.isSome_iff_ne_none.mp hsome) (not_not_intro hnone)
    · rw [List.find?_isSome]
      refine ⟨r, mem_buckets.mpr ⟨hr, hchain.trans hzero⟩, ?_⟩
      rw [hnames, hfits]
      rfl

omit [DecidableEq α] in
/-- A record in the first chain is found by its `sockhost`. -/
theorem findByName_sockhost (hr : r ∈ l) (hchain : r.chain = 0) (hsock : sockhost.any r.names = true)
    (hfits : r.fits type username = true) :
    (findByName (buckets AddressRec.chain l) name sockhost type username).isSome := by
  unfold findByName
  dsimp only
  split
  · rfl
  · rw [List.find?_isSome]
    refine ⟨r, mem_buckets.mpr ⟨hr, hchain⟩, ?_⟩
    rw [hsock, hfits, Bool.or_true]
    rfl

omit [DecidableEq α] in
/-- `parse_netmask` bounds the length of an IPv4 mask. -/
theorem sized_mkAddressRec (address : Bytes) (type : RecType) (username : Bytes) (conf : α) :
    Sized (mkAddressRec pton address type username conf) := by
  intro mask hmask hv4
  unfold mkAddressRec parseNetmask at hmask
  dsimp only at hmask
  split at hmask
  · cases hmask
  split at hmask
  · obtain ⟨a, -, rfl⟩ := Option.map_eq_some_iff.mp hmask
    cases hv4
  split at hmask
  · obtain ⟨a, -, rfl⟩ := Option.map_eq_some_iff.mp hmask
    exact splitBits_le 32 _
  · cases hmask

theorem stored_sized (ops : List (Op α)) : ∀ r ∈ stored pton ops, Sized r := by
  unfold stored
  induction ops using List.reverseRecOn with
  | nil => exact nofun
  | append_singleton ops op ih =>
    rw [List.foldl_append]
    cases op with
    | add address type username conf =>
      intro r hr
      rcases List.mem_cons.mp hr with rfl | hr
      · exact sized_mkAddressRec _ _ _ _
      · exact ih r hr
    | delete address conf => exact fun r hr => ih r (List.mem_of_mem_eraseP hr)

/-- The table is the list of the records, each in its chain. -/
theorem run_eq_buckets (ops : List (Op α)) :
    run pton ops = buckets AddressRec.chain (stored pton ops) := by
  unfold run stored
  induction ops using List.reverseRecOn with
  | nil => rfl
  | append_singleton ops op ih =>
    rw [List.foldl_append, List.foldl_append, ih]
    cases op with
    | add address type username conf => exact (buckets_cons _ _).symm
    | delete address conf => exact (buckets_eraseP _ _ _).symm

omit [DecidableEq α] in
theorem fits_iff {q : Query} : r.fits q.type (q.username.getD []) = true ↔
    r.type = q.type ∧ (r.skipUser = true ∨ matchMask r.username (q.username.getD []) = true) := by
  simp only [AddressRec.fits, Bool.and_eq_true, decide_eq_true_eq, Bool.or_eq_true]
  exact and_congr_left' eq_comm

omit [DecidableEq α] in
theorem matches_iff {q : Query} : Matches r q ↔ r.fits q.type (q.username.getD []) = true ∧
    ((∃ addr, q.addr = some addr ∧ r.covers addr.v6 addr = true) ∨
      ∃ name, q.name = some name ∧ r.names name = true) := by
  rw [fits_iff, Matches, and_assoc]
  refine and_congr_right fun _ => and_congr_right fun _ => or_congr ?_ ?_
  · constructor
    · rintro ⟨mask, addr, hmask, haddr, hfam, hin⟩
      exact ⟨addr, haddr, covers_iff.mpr ⟨mask, hmask, hfam, hin⟩⟩
    · rintro ⟨addr, haddr, hcovers⟩
      obtain ⟨mask, hmask, hfam, hin⟩ := covers_iff.mp hcovers
      exact ⟨mask, addr, hmask, haddr, hfam, hin⟩
  · simp only [ForName, AddressRec.names, Bool.and_eq_true, Option.isNone_iff_eq_none]
    exact ⟨fun ⟨name, hmask, hname, hm⟩ => ⟨name, hname, hmask, hm⟩,
      fun ⟨name, hname, hmask, hm⟩ => ⟨name, hmask, hname, hm⟩⟩

omit [DecidableEq α] in
theorem find_sound {q : Query} {conf : α} (h : find (buckets AddressRec.chain l) q = some conf) :
    ∃ r ∈ l, Matches r q ∧ r.conf = conf := by
  have haddr : ∀ {r}, ((q.addr.map fun addr => (addr.v6, addr)).bind fun a =>
      findByAddr (buckets AddressRec.chain l) a.1 a.2 q.type (q.username.getD [])) = some r →
      r ∈ l ∧ Matches r q := by
    intro r hr
    rw [Option.bind_eq_some_iff] at hr
    obtain ⟨a, ha, hr⟩ := hr
    obtain ⟨addr, haddr, rfl⟩ := Option.map_eq_some_iff.mp ha
    obtain ⟨hmem, hcovers, hfits⟩ := findByAddr_sound hr
    exact ⟨hmem, matches_iff.mpr ⟨hfits, Or.inl ⟨addr, haddr, hcovers⟩⟩⟩
  unfold find at h
  dsimp only at h
  split at h
  · rename_i name hname
    obtain ⟨r, hr, rfl⟩ := Option.map_eq_some_iff.mp h
    unfold findConfByAddress at hr
    split at hr
    · rename_i x hx
      obtain rfl := Option.some.inj hr
      obtain ⟨hmem, hm⟩ := haddr hx
      exact ⟨x, hmem, hm, rfl⟩
    · obtain ⟨hmem, hfits, hnames | ⟨-, hnone⟩⟩ := findByName_sound hr
      · exact ⟨r, hmem, matches_iff.mpr ⟨hfits, Or.inr ⟨name, hname, hnames⟩⟩, rfl⟩
      · cases hnone
  · obtain ⟨r, hr, rfl⟩ := Option.map_eq_some_iff.mp h
    obtain ⟨hmem, hm⟩ := haddr hr
    exact ⟨r, hmem, hm, rfl⟩

omit [DecidableEq α] in
theorem find_complete {q : Query} (hr : r ∈ l) (hsize : Sized r) (hm : Matches r q) :
    (find (buckets AddressRec.chain l) q).isSome := by
  obtain ⟨hfits, ⟨addr, haddr, hcovers⟩ | ⟨name, hname, hnames⟩⟩ := matches_iff.mp hm
  · have hfound := findByAddr_complete hr hsize hcovers hfits
    obtain ⟨x, hx⟩ := Option.isSome_iff_exists.mp hfound
    unfold find findConfByAddress
    rw [haddr]
    dsimp only [Option.map_some, Option.bind_some]
    rw [hx]
    cases q.name <;> rfl
  · unfold find findConfByAddress
    rw [hname]
    dsimp only
    rw [Option.isSome_map]
    split
    · rfl
    · exact findByName_complete hr hnames hfits

end Table

-- ============================================================================
-- Lookup and scan
-- ============================================================================

/-- After any calls, `find_conf_by_address` finds something if and only if a record that
    was added and not deleted is what is asked for, and what it finds is such a one. -/
theorem find_iff_scan (ops : List (Op α)) (q : Query) :
    ((find (run pton ops) q).isSome ↔ ∃ r ∈ stored pton ops, Matches r q) ∧
      ∀ conf, find (run pton ops) q = some conf →
        ∃ r ∈ stored pton ops, Matches r q ∧ r.conf = conf := by
  rw [run_eq_buckets]
  refine ⟨⟨fun h => ?_, ?_⟩, fun conf h => find_sound h⟩
  · obtain ⟨conf, hconf⟩ := Option.isSome_iff_exists.mp h
    obtain ⟨r, hr, hm, -⟩ := find_sound hconf
    exact ⟨r, hr, hm⟩
  · rintro ⟨r, hr, hm⟩
    exact find_complete hr (stored_sized ops r hr) hm

-- ============================================================================
-- The numeric host
-- ============================================================================

/-- `find_conf_by_address` with a `sockhost`. -/
def findSockhost (t : Atable α) (q : Query) (sockhost : Bytes) : Option α :=
  match q.name with
  | some name =>
    (findConfByAddress t name (some sockhost) (q.addr.map fun addr => (addr.v6, addr)) q.type
      (q.username.getD [])).map AddressRec.conf
  | none => find t q

/-- A mask with a wildcard. -/
def IsWild (mask : Bytes) : Prop := star ∈ mask ∨ quest ∈ mask

/-- A record for host names, of the type and for the user of a query, matches a text. -/
def HostMatches (r : AddressRec α) (q : Query) (text : Bytes) : Prop :=
  r.mask = none ∧ r.type = q.type ∧
    (r.skipUser = true ∨ matchMask r.username (q.username.getD []) = true) ∧
    matchMask r.hostname text = true

omit [DecidableEq α] in
theorem hostMatches_iff {r : AddressRec α} {q : Query} {text : Bytes} : HostMatches r q text ↔
    r.names text = true ∧ r.fits q.type (q.username.getD []) = true := by
  rw [fits_iff, AddressRec.names, Bool.and_eq_true, Option.isNone_iff_eq_none, HostMatches]
  tauto

omit [DecidableEq α] in
theorem chain_of_hostMatches {r : AddressRec α} {q : Query} {text : Bytes} (h : HostMatches r q text) :
    r.chain = getMaskHash r.hostname := by
  unfold AddressRec.chain
  rw [h.1]

/-- A record answers a query with a `sockhost`: it is what the query asks for, or it is
    in the first chain and matches the `sockhost`. -/
def Answers (r : AddressRec α) (q : Query) (sockhost : Bytes) : Prop :=
  Matches r q ∨ HostMatches r q sockhost ∧ getMaskHash r.hostname = 0

theorem findSockhost_isSome_iff (ops : List (Op α)) (q : Query) (name sockhost : Bytes)
    (hname : q.name = some name) : (findSockhost (run pton ops) q sockhost).isSome ↔
      ∃ r ∈ stored pton ops, Answers r q sockhost := by
  have hfind : findSockhost (run pton ops) q sockhost =
      (findConfByAddress (run pton ops) name (some sockhost) (q.addr.map fun addr => (addr.v6, addr))
        q.type (q.username.getD [])).map AddressRec.conf := by
    unfold findSockhost
    rw [hname]
  rw [hfind, run_eq_buckets, Option.isSome_map, findConfByAddress]
  constructor
  · intro h
    split at h
    · rename_i x hx
      obtain ⟨a, ha, hx⟩ := Option.bind_eq_some_iff.mp hx
      obtain ⟨addr, haddr, rfl⟩ := Option.map_eq_some_iff.mp ha
      obtain ⟨hmem, hcovers, hfits⟩ := findByAddr_sound hx
      exact ⟨x, hmem, Or.inl (matches_iff.mpr ⟨hfits, Or.inl ⟨addr, haddr, hcovers⟩⟩)⟩
    · obtain ⟨r, hr⟩ := Option.isSome_iff_exists.mp h
      obtain ⟨hmem, hfits, hnames | ⟨hchain, hsock⟩⟩ := findByName_sound hr
      · exact ⟨r, hmem, Or.inl (matches_iff.mpr ⟨hfits, Or.inr ⟨name, hname, hnames⟩⟩)⟩
      · have hm : HostMatches r q sockhost := hostMatches_iff.mpr ⟨hsock, hfits⟩
        exact ⟨r, hmem, Or.inr ⟨hm, (chain_of_hostMatches hm).symm.trans hchain⟩⟩
  · rintro ⟨r, hr, hm | ⟨hm, hzero⟩⟩
    · obtain ⟨hfits, ⟨addr, haddr, hcovers⟩ | ⟨name', hname', hnames⟩⟩ := matches_iff.mp hm
      · have hfound := findByAddr_complete hr (stored_sized ops r hr) hcovers hfits
        obtain ⟨x, hx⟩ := Option.isSome_iff_exists.mp hfound
        rw [haddr]
        dsimp only [Option.map_some, Option.bind_some]
        rw [hx]
        rfl
      · obtain rfl := Option.some.inj (hname.symm.trans hname')
        split
        · rfl
        · exact findByName_complete hr hnames hfits
    · obtain ⟨hsock, hfits⟩ := hostMatches_iff.mp hm
      split
      · rfl
      · exact findByName_sockhost hr ((chain_of_hostMatches hm).trans hzero) hsock hfits

/-- A wildcard mask that matches the `sockhost` makes `find_conf_by_address` find
    something, unless all such masks are in the chains of the text behind their last
    wildcard and no other record answers. -/
theorem wildcard_applies_iff (ops : List (Op α)) (name sockhost : Bytes) (addr : Option IpAddr)
    (type : RecType) (username : Option Bytes) :
    ((∃ r ∈ stored pton ops, IsWild r.hostname ∧
        HostMatches r ⟨some name, addr, type, username⟩ sockhost) →
      (findSockhost (run pton ops) ⟨some name, addr, type, username⟩ sockhost).isSome) ↔
    ((∃ r ∈ stored pton ops, IsWild r.hostname ∧ getMaskHash r.hostname ≠ 0 ∧
        HostMatches r ⟨some name, addr, type, username⟩ sockhost) →
      ∃ r ∈ stored pton ops, Answers r ⟨some name, addr, type, username⟩ sockhost) := by
  rw [findSockhost_isSome_iff pton ops _ name sockhost rfl]
  constructor
  · rintro h ⟨r, hr, hwild, -, hm⟩
    exact h ⟨r, hr, hwild, hm⟩
  · rintro h ⟨r, hr, hwild, hm⟩
    by_cases hzero : getMaskHash r.hostname = 0
    · exact ⟨r, hr, Or.inr ⟨hm, hzero⟩⟩
    · exact h ⟨r, hr, hwild, hzero, hm⟩

/-- `*.0.0.1` is not found for the host 10.0.0.1 of another name. -/
theorem wildcard_not_found :
    ¬ ∀ (ops : List (Op Nat)) (name sockhost : Bytes) (addr : Option IpAddr) (type : RecType)
        (username : Option Bytes),
      (∃ r ∈ stored (fun _ => none) ops, IsWild r.hostname ∧
        HostMatches r ⟨some name, addr, type, username⟩ sockhost) →
      (findSockhost (run (fun _ => none) ops) ⟨some name, addr, type, username⟩ sockhost).isSome := by
  intro h
  have hfound := h [.add (some [42, 46, 48, 46, 48, 46, 49]) .kill none 7] [97, 46, 98]
    [49, 48, 46, 48, 46, 48, 46, 49] none .kill none ?_
  · revert hfound
    decide
  · refine ⟨_, List.mem_singleton_self _, Or.inl List.mem_cons_self, rfl, rfl, Or.inl rfl, ?_⟩
    decide

end Bluebox.Lookup
