/-
  Bluebox.Atable.Auth

  The auth blocks in the table of address masks (`libratboxcore/hostmask.c`): `find_auth`
  goes through the chains from the longest prefix to the shortest, then through those of
  the name, and keeps the record with the highest precedence.

  `add_conf_by_address` hands the precedences out from the highest down, so what it keeps
  is the record of all that match which was added first.
-/
import Mathlib.Order.Nat
import Bluebox.Lib.Highest
import Bluebox.Atable.Lookup

namespace Bluebox.Auth

open Bluebox.Lib
open Bluebox.Lookup (noMatch chainOf Query Matches Sized chain_probed getMaskHash_probed matches_iff
  sized_mkAddressRec)

-- ============================================================================
-- The table with precedences
-- ============================================================================

/-- `aconf` and `precedence` of a `struct AddressRec`. -/
structure Ranked (α : Type) where
  aconf : α
  precedence : Nat

/-- The table, and the `prec_value` of `add_conf_by_address`, an unsigned number of 32 bits. -/
structure Hosts (α : Type) where
  atable : Atable (Ranked α)
  precValue : Nat

/-- The calls that change the table. -/
inductive Op (α : Type)
  /-- `add_conf_by_address`. -/
  | add (address : Option Bytes) (type : RecType) (username : Option Bytes) (conf : α)
  /-- `delete_one_address_conf`. -/
  | delete (address : Bytes) (conf : α)
  /-- `clear_out_address_conf`. -/
  | clear
  /-- `clear_out_address_conf_bans`. -/
  | clearBans

variable {α : Type}

/-- The first `prec_value`, `0xFFFFFFFF`. -/
def firstPrec : Nat := 2 ^ 32 - 1

/-- The start: `init_host_hash`. -/
def initHosts : Hosts α := ⟨fun _ => [], firstPrec⟩

/-- The type of a call that takes a precedence. -/
def Op.isAuth : Op α → Bool
  | .add _ type _ _ => type == .client
  | _ => false

/-- The record of a call; only the auth blocks get a precedence. -/
def newRec (pton : Bytes → Option IpAddr) (precValue : Nat) (address : Option Bytes) (type : RecType)
    (username : Option Bytes) (conf : α) : AddressRec (Ranked α) :=
  mkAddressRec pton (address.getD noMatch) type (username.getD [])
    ⟨conf, if type = .client then precValue else 0⟩

/-- `prec_value--`. -/
def nextPrec (precValue : Nat) : Nat := (precValue + firstPrec) % 2 ^ 32

/-- The records that `clear_out_address_conf` keeps; `temporary` is the flag of a `ConfItem`. -/
def keptByClear (temporary : α → Bool) (r : AddressRec (Ranked α)) : Bool :=
  temporary r.conf.aconf || (r.type != .client && r.type != .exemptDline)

/-- The records that `clear_out_address_conf_bans` keeps. -/
def keptByClearBans (temporary : α → Bool) (r : AddressRec (Ranked α)) : Bool :=
  temporary r.conf.aconf || r.type == .client || r.type == .exemptDline

section Calls

variable [DecidableEq α] (pton : Bytes → Option IpAddr) (temporary : α → Bool)

/-- A call. -/
def Op.step (s : Hosts α) : Op α → Hosts α
  | .add address type username conf =>
    let r := newRec pton s.precValue address type username conf
    { atable := Function.update s.atable r.chain (r :: s.atable r.chain)
      precValue := if type = .client then nextPrec s.precValue else s.precValue }
  | .delete address conf =>
    let hv := chainOf pton address
    let rest := (s.atable hv).eraseP fun r => decide (r.conf.aconf = conf)
    { s with atable := Function.update s.atable hv rest }
  | .clear => { s with atable := fun hv => (s.atable hv).filter (keptByClear temporary) }
  | .clearBans => { s with atable := fun hv => (s.atable hv).filter (keptByClearBans temporary) }

/-- The table after some calls. -/
def run (ops : List (Op α)) : Hosts α := ops.foldl (Op.step pton temporary) initHosts

/-- What a call does to the list of the records, newest first, and to `prec_value`. -/
def Op.store (s : List (AddressRec (Ranked α)) × Nat) :
    Op α → List (AddressRec (Ranked α)) × Nat
  | .add address type username conf =>
    (newRec pton s.2 address type username conf :: s.1, if type = .client then nextPrec s.2 else s.2)
  | .delete address conf =>
    (s.1.eraseP fun r => decide (r.chain = chainOf pton address) && decide (r.conf.aconf = conf), s.2)
  | .clear => (s.1.filter (keptByClear temporary), s.2)
  | .clearBans => (s.1.filter (keptByClearBans temporary), s.2)

/-- The records that were added and are still present, newest first. -/
def stored (ops : List (Op α)) : List (AddressRec (Ranked α)) :=
  (ops.foldl (Op.store pton temporary) ([], firstPrec)).1

end Calls

-- ============================================================================
-- find_auth
-- ============================================================================

/-- The chains that are searched for an address. -/
def addrChains (addr : IpAddr) : List Nat :=
  if addr.v6 then [128, 112, 96, 80, 64, 48, 32, 16, 0].map (hashIpv6 addr)
  else [32, 24, 16, 8, 0].map (hashIpv4 addr)

/-- One record in one of the loops: `hprecv` and `hprec` are the best so far. -/
def tryRec (p : AddressRec (Ranked α) → Bool) : Nat × Option α → AddressRec (Ranked α) → Nat × Option α :=
  raise p (fun r => r.conf.precedence) fun r => r.conf.aconf

/-- The loops over some chains. -/
def tryChains (t : Atable (Ranked α)) (p : AddressRec (Ranked α) → Bool) (best : Nat × Option α)
    (hvs : List Nat) : Nat × Option α :=
  hvs.foldl (fun best hv => (t hv).foldl (tryRec p) best) best

/-- The part of `find_auth` for an address. -/
def authByAddr (t : Atable (Ranked α)) (addr : Option IpAddr) (username : Bytes) : Nat × Option α :=
  match addr with
  | none => (0, none)
  | some addr =>
    tryChains t (fun r => r.covers addr.v6 addr && r.fits .client username) (0, none) (addrChains addr)

/-- The part of `find_auth` for a host name. -/
def authByName (t : Atable (Ranked α)) (name sockhost : Option Bytes) (username : Bytes)
    (best : Nat × Option α) : Nat × Option α :=
  match name with
  | none => best
  | some name =>
    tryChains t (fun r => (r.names name || sockhost.any r.names) && r.fits .client username)
      (tryChains t (fun r => r.names name && r.fits .client username) best
        ((name :: afterDots name).map hashText)) [0]

/-- `find_auth`; the family is that of the address. -/
def findAuth (t : Atable (Ranked α)) (name sockhost : Option Bytes) (addr : Option IpAddr)
    (username : Option Bytes) : Option α :=
  (authByName t name sockhost (username.getD []) (authByAddr t addr (username.getD []))).2

-- ============================================================================
-- The chains cover the records that match
-- ============================================================================

variable {l : List (AddressRec (Ranked α))}

/-- What the search has seen in the end are the stored records that match. -/
theorem findAuth_best (hsize : ∀ r ∈ l, Sized r) (name : Option Bytes) (addr : Option IpAddr)
    (username : Option Bytes) :
    Best (fun r : AddressRec (Ranked α) => r.conf.precedence) (fun r => r.conf.aconf)
      (fun r => r ∈ l ∧ Matches r ⟨name, addr, .client, username⟩)
      (authByName (buckets AddressRec.chain l) name none (username.getD [])
        (authByAddr (buckets AddressRec.chain l) addr (username.getD []))) := by
  have hprobed : ∀ {ks : List Nat} {r : AddressRec (Ranked α)},
      (∃ k ∈ ks, r ∈ buckets AddressRec.chain l k) ↔ r ∈ l ∧ r.chain ∈ ks := by
    intro ks r
    constructor
    · rintro ⟨k, hk, hr⟩
      obtain ⟨hmem, hchain⟩ := mem_buckets.mp hr
      exact ⟨hmem, hchain ▸ hk⟩
    · rintro ⟨hmem, hk⟩
      exact ⟨r.chain, hk, mem_buckets.mpr ⟨hmem, rfl⟩⟩
  -- by address: the records that cover it
  have haddr : Best (fun r : AddressRec (Ranked α) => r.conf.precedence) (fun r => r.conf.aconf)
      (fun r => r ∈ l ∧ r.fits .client (username.getD []) = true ∧
        ∃ a, addr = some a ∧ r.covers a.v6 a = true)
      (authByAddr (buckets AddressRec.chain l) addr (username.getD [])) := by
    cases addr with
    | none =>
      refine Best.none.congr fun r => ⟨False.elim, ?_⟩
      rintro ⟨-, -, a, ha, -⟩
      cases ha
    | some a =>
      refine (Best.none.foldl_chains _ _ (addrChains a)).congr fun r => ?_
      rw [hprobed, Bool.and_eq_true, false_or]
      constructor
      · rintro ⟨⟨hmem, -⟩, hcovers, hfits⟩
        exact ⟨hmem, hfits, a, rfl, hcovers⟩
      · rintro ⟨hmem, hfits, b, hb, hcovers⟩
        cases hb
        exact ⟨⟨hmem, chain_probed (hsize r hmem) hcovers⟩, hcovers, hfits⟩
  cases name with
  | none =>
    refine haddr.congr fun r => and_congr_right fun _ => ?_
    rw [matches_iff]
    refine and_congr_right fun _ => ⟨Or.inl, ?_⟩
    rintro (h | ⟨n, hn, -⟩)
    · exact h
    · cases hn
  | some n =>
    refine ((haddr.foldl_chains _ _ ((n :: afterDots n).map hashText)).foldl_chains _ _ [0]).congr
      fun r => ?_
    rw [hprobed, hprobed, Bool.and_eq_true, Bool.and_eq_true, matches_iff, Option.any_none, Bool.or_false,
      List.mem_singleton]
    constructor
    · rintro ((⟨hmem, hfits, h⟩ | ⟨⟨hmem, -⟩, hnames, hfits⟩) | ⟨⟨hmem, -⟩, hnames, hfits⟩)
      · exact ⟨hmem, hfits, Or.inl h⟩
      · exact ⟨hmem, hfits, Or.inr ⟨n, rfl, hnames⟩⟩
      · exact ⟨hmem, hfits, Or.inr ⟨n, rfl, hnames⟩⟩
    · rintro ⟨hmem, hfits, h | ⟨n', hn', hnames⟩⟩
      · exact Or.inl (Or.inl ⟨hmem, hfits, h⟩)
      · cases hn'
        obtain ⟨hhost, hmatch⟩ := Bool.and_eq_true_iff.mp hnames
        have hchain : r.chain = getMaskHash r.hostname := by
          unfold AddressRec.chain
          rw [Option.isNone_iff_eq_none.mp hhost]
        rcases getMaskHash_probed hmatch with hprobe | hzero
        · exact Or.inl (Or.inr ⟨⟨hmem, hchain ▸ hprobe⟩, hnames, hfits⟩)
        · exact Or.inr ⟨⟨hmem, hchain.trans hzero⟩, hnames, hfits⟩

-- ============================================================================
-- The precedences
-- ============================================================================

/-- The list of the records after some calls, of which so many took a precedence: the
    older of two auth blocks has the higher one, and the next is lower than all. -/
structure Ordered (taken : Nat) (s : List (AddressRec (Ranked α)) × Nat) : Prop where
  precValue : s.2 + taken = firstPrec
  above : ∀ r ∈ s.1, r.type = .client → s.2 < r.conf.precedence
  older : s.1.Pairwise fun newer older =>
    newer.type = .client → older.type = .client → newer.conf.precedence < older.conf.precedence
  sized : ∀ r ∈ s.1, Sized r

variable [DecidableEq α] {pton : Bytes → Option IpAddr} {temporary : α → Bool}

omit [DecidableEq α] in
theorem Ordered.sublist {taken : Nat} {s : List (AddressRec (Ranked α)) × Nat} (h : Ordered taken s)
    {l : List (AddressRec (Ranked α))} (hl : l.Sublist s.1) : Ordered taken (l, s.2) :=
  ⟨h.precValue, fun r hr => h.above r (hl.subset hr), h.older.sublist hl,
    fun r hr => h.sized r (hl.subset hr)⟩

/-- One call. -/
theorem Ordered.step {taken : Nat} {s : List (AddressRec (Ranked α)) × Nat} (h : Ordered taken s)
    (op : Op α) (hroom : taken + (if op.isAuth then 1 else 0) < firstPrec) :
    Ordered (taken + if op.isAuth then 1 else 0) (op.store pton temporary s) := by
  cases op with
  | add address type username conf =>
    have hprec := h.precValue
    have hsized : ∀ r ∈ newRec pton s.2 address type username conf :: s.1, Sized r := by
      intro r hr
      rcases List.mem_cons.mp hr with rfl | hr
      · exact sized_mkAddressRec _ _ _ _
      · exact h.sized r hr
    by_cases hclient : type = .client
    · have hauth : (Op.add address type username conf).isAuth = true := beq_iff_eq.mpr hclient
      rw [hauth, if_pos rfl] at hroom ⊢
      have hnext : nextPrec s.2 = s.2 - 1 := by
        unfold nextPrec
        unfold firstPrec at hprec hroom ⊢
        omega
      have hnew : (newRec pton s.2 address type username conf).conf.precedence = s.2 := if_pos hclient
      have hstore : (Op.add address type username conf).store pton temporary s =
          (newRec pton s.2 address type username conf :: s.1, s.2 - 1) :=
        congrArg (Prod.mk _) ((if_pos hclient).trans hnext)
      rw [hstore]
      refine ⟨by dsimp only; omega, fun r hr hr' => ?_, ?_, hsized⟩
      · rcases List.mem_cons.mp hr with rfl | hr
        · rw [hnew]
          dsimp only
          omega
        · exact lt_of_le_of_lt (Nat.sub_le _ _) (h.above r hr hr')
      · refine List.pairwise_cons.mpr ⟨fun r hr _ hr' => ?_, h.older⟩
        rw [hnew]
        exact h.above r hr hr'
    · have hauth : (Op.add address type username conf).isAuth = false := beq_eq_false_iff_ne.mpr hclient
      have htype : (newRec pton s.2 address type username conf).type ≠ .client := hclient
      have hstore : (Op.add address type username conf).store pton temporary s =
          (newRec pton s.2 address type username conf :: s.1, s.2) :=
        congrArg (Prod.mk _) (if_neg hclient)
      rw [hauth, hstore, if_neg Bool.false_ne_true, Nat.add_zero]
      refine ⟨hprec, fun r hr hr' => ?_, List.pairwise_cons.mpr ⟨fun r _ hnew => absurd hnew htype, h.older⟩,
        hsized⟩
      rcases List.mem_cons.mp hr with rfl | hr
      · exact absurd hr' htype
      · exact h.above r hr hr'
  | delete address conf => exact h.sublist List.eraseP_sublist
  | clear => exact h.sublist List.filter_sublist
  | clearBans => exact h.sublist List.filter_sublist

/-- The list after any calls. -/
theorem run_ordered (ops : List (Op α)) (hfew : ops.countP Op.isAuth < firstPrec) :
    Ordered (ops.countP Op.isAuth) (ops.foldl (Op.store pton temporary) ([], firstPrec)) := by
  induction ops using List.reverseRecOn with
  | nil =>
    exact ⟨rfl, fun r hr => absurd hr List.not_mem_nil, List.Pairwise.nil,
      fun r hr => absurd hr List.not_mem_nil⟩
  | append_singleton ops op ih =>
    rw [List.countP_append, List.countP_singleton] at hfew ⊢
    rw [List.foldl_append]
    exact (ih (by omega)).step op hfew

/-- The table is the list of the records, each in its chain. -/
theorem run_eq_buckets (ops : List (Op α)) :
    run pton temporary ops = ⟨buckets AddressRec.chain (stored pton temporary ops),
      (ops.foldl (Op.store pton temporary) ([], firstPrec)).2⟩ := by
  unfold run stored
  induction ops using List.reverseRecOn with
  | nil => rfl
  | append_singleton ops op ih =>
    rw [List.foldl_append, List.foldl_append, ih]
    generalize ops.foldl (Op.store pton temporary) ([], firstPrec) = s
    cases op with
    | add address type username conf => exact congrArg (Hosts.mk · _) (buckets_cons _ _).symm
    | delete address conf => exact congrArg (Hosts.mk · _) (buckets_eraseP _ _ _).symm
    | clear => exact congrArg (Hosts.mk · _) (buckets_filter _ _).symm
    | clearBans => exact congrArg (Hosts.mk · _) (buckets_filter _ _).symm

-- ============================================================================
-- The first block that matches
-- ============================================================================

/-- After any calls, with fewer than 2^32 - 1 auth blocks among them, `find_auth` without a
    `sockhost` returns the block of the record that was added first of all records still
    present that match, and NULL only if none matches. -/
theorem findAuth_first (pton : Bytes → Option IpAddr) (temporary : α → Bool) (ops : List (Op α))
    (hfew : ops.countP Op.isAuth < firstPrec) (name : Option Bytes) (addr : Option IpAddr)
    (username : Option Bytes) :
    (∀ newer r older, stored pton temporary ops = newer ++ r :: older →
      Matches r ⟨name, addr, .client, username⟩ →
      (∀ x ∈ older, ¬ Matches x ⟨name, addr, .client, username⟩) →
      findAuth (run pton temporary ops).atable name none addr username = some r.conf.aconf) ∧
    (findAuth (run pton temporary ops).atable name none addr username = none ↔
      ∀ r ∈ stored pton temporary ops, ¬ Matches r ⟨name, addr, .client, username⟩) := by
  have hordered : Ordered _ (ops.foldl (Op.store pton temporary) ([], firstPrec)) := run_ordered ops hfew
  have hbest := findAuth_best hordered.sized name addr username
  have hpos : ∀ r ∈ stored pton temporary ops, Matches r ⟨name, addr, .client, username⟩ →
      0 < r.conf.precedence := fun r hr hm =>
    lt_of_le_of_lt (Nat.zero_le _) (hordered.above r hr hm.1)
  have hfirst : ∀ newer r older, stored pton temporary ops = newer ++ r :: older →
      Matches r ⟨name, addr, .client, username⟩ →
      (∀ x ∈ older, ¬ Matches x ⟨name, addr, .client, username⟩) →
      findAuth (run pton temporary ops).atable name none addr username = some r.conf.aconf := by
    intro newer r older hsplit hm hlast
    have hr : r ∈ stored pton temporary ops := by
      rw [hsplit]
      exact List.mem_append_right _ List.mem_cons_self
    rw [run_eq_buckets]
    refine hbest.snd_of_highest ⟨hr, hm⟩ (hpos r hr hm) fun x ⟨hx, hxm⟩ hle => ?_
    have hpair : (newer ++ r :: older).Pairwise fun newer older : AddressRec (Ranked α) =>
        newer.type = .client → older.type = .client → newer.conf.precedence < older.conf.precedence :=
      hsplit ▸ hordered.older
    have hmem : x ∈ newer ++ r :: older := hsplit ▸ hx
    rcases List.mem_append.mp hmem with hnew | hrest
    · -- a newer block has a lower precedence
      have hlt := (List.pairwise_append.mp hpair).2.2 x hnew r List.mem_cons_self hxm.1 hm.1
      exact absurd hle (not_le.mpr hlt)
    · rcases List.mem_cons.mp hrest with heq | hold
      · exact heq
      · exact absurd hxm (hlast x hold)
  refine ⟨hfirst, fun hnone r hr hm => ?_, fun hnone => ?_⟩
  · -- some record is the oldest that matches
    rw [run_eq_buckets] at hnone
    have hbound := hbest.bound r ⟨hr, hm⟩
    have hpos' := hpos r hr hm
    rcases hbest.found with heq | ⟨x, -, heq⟩
    · rw [heq] at hbound
      exact absurd hbound (not_le.mpr hpos')
    · have hsome := congrArg Prod.snd heq
      exact absurd (hsome.symm.trans hnone) (Option.some_ne_none _)
  · rw [run_eq_buckets]
    exact hbest.snd_of_empty fun r h => hnone r h.1 h.2

/-- `*` and then `x.it`, which is in another chain that is searched before. -/
def twoBlocks : List (Op Nat) :=
  [.add (some [42]) .client none 1, .add (some [120, 46, 105, 116]) .client none 2]

/-- For `x.it` the first of the two blocks is found. -/
theorem findAuth_first_two :
    findAuth (run (fun _ => none) (fun _ => false) twoBlocks).atable (some [120, 46, 105, 116]) none none none
      = some 1 :=
  (findAuth_first (fun _ => none) (fun _ => false) twoBlocks (by decide) (some [120, 46, 105, 116]) none
    none).1 [_] _ [] rfl
    ⟨rfl, Or.inl rfl, Or.inr ⟨[120, 46, 105, 116], rfl, rfl, by decide⟩⟩
    fun x hx => absurd hx List.not_mem_nil

end Bluebox.Auth
