/-
  Bluebox.Kline.Unkline

  K-lines that operators place and remove (`mo_kline` and `mo_unkline` in
  `modules/m_kline.c`).

  Both commands read the same text, each with its own code.  `KLINE` cuts the user and the
  host to their buffers and makes a CIDR block of numbers and stars; `UNKLINE` does neither,
  and looks for a K-line that reads as it was written.
-/
import Bluebox.Atable.Lookup
import Bluebox.Bandb.Masks
import Bluebox.Kline.Cidr
import Bluebox.Kline.TempTime
import Bluebox.Sizes

namespace Bluebox.Kline

open Bluebox.Lib Bluebox.Lookup

-- ============================================================================
-- The table
-- ============================================================================

/-- The `ConfItem` of a K-line; `addr` is where it is allocated. -/
structure KConf where
  addr : Nat
  user : Option Bytes
  host : Bytes
  temporary : Bool
  locked : Bool
deriving DecidableEq, Repr

/-- `temp_list`. -/
inductive TempList
  | min
  | hour
  | day
  | week
deriving DecidableEq, Repr

/-- `atable` and `temp_klines`. -/
structure Klines where
  atable : Atable KConf
  tempKlines : TempList → List KConf

/-- What the commands read of the configuration. -/
structure Config where
  me : Bytes
  minNonwildcard : Nat
  nonRedundantKlines : Bool

/-- The privileges of an operator. -/
structure Oper where
  kline : Bool
  unkline : Bool
  remoteBan : Bool
  admin : Bool
deriving DecidableEq, Repr

-- ============================================================================
-- KLINE
-- ============================================================================

/-- What `find_user_host` copies of a host. -/
def klineHost (host : Bytes) : Bytes := strlcpy ((mangleWildcardToCidr host).getD host) (hostLen + 1)

/-- `find_user_host`. -/
def findUserHost (userhost : Bytes) : Option (Bytes × Bytes) :=
  match strchr 64 userhost with
  | some (luser, hostp) =>
    some (if luser = [] then splat else strlcpy luser (userLen + 1), if hostp = [] then splat else klineHost hostp)
  | none =>
    if strchr 46 userhost = none ∧ strchr 58 userhost = none then none else some (splat, klineHost userhost)

/-- `already_placed_kline`. -/
def Klines.alreadyPlacedKline (cfg : Config) (k : Klines) (luser lhost : Bytes) : Bool :=
  cfg.nonRedundantKlines &&
    (findConfByAddress k.atable lhost none
      ((parseNetmask rbInetPtonSock lhost).map fun mask => (mask.v6, mask.addr)) .kill luser).isSome

/-- The list of `add_temp_kline`. -/
def tempListFor (time : Int) : TempList :=
  if time ≥ 10080 * 60 then .week else if time ≥ 1440 * 60 then .day else if time ≥ 60 * 60 then .hour else .min

/-- `set_kline`, with the new `ConfItem` at `addr`; nothing where no K-line is set. -/
def Klines.setKline (cfg : Config) (k : Klines) (addr : Nat) (user host : Bytes) (tklineTime : Int) (admin : Bool) :
    Option Klines :=
  if ¬ Bandb.validUserHost user host ∨ ¬ Bandb.validWildCard cfg.minNonwildcard user host then none
  else if k.alreadyPlacedKline cfg user host then none
  else if tklineTime > 0 then
    let aconf : KConf := ⟨addr, some user, host, true, false⟩
    some
      { atable := addConfByAddress rbInetPtonSock k.atable host .kill user aconf
        tempKlines := Function.update k.tempKlines (tempListFor tklineTime) (aconf :: k.tempKlines (tempListFor tklineTime)) }
  else
    let aconf : KConf := ⟨addr, some user, host, false, admin⟩
    some { k with atable := addConfByAddress rbInetPtonSock k.atable host .kill user aconf }

/-- The `int` that `mo_kline` makes of the time. -/
def klineTime (parv : List Bytes) : Int := toInt32 (validTempTime (parv.getD 1 [])).toInt

/-- The place of the mask in a `KLINE`. -/
def klineLoc (parv : List Bytes) : Nat := if klineTime parv ≥ 0 then 2 else 1

/-- The mask of a `KLINE`. -/
def klineMask (parv : List Bytes) : Bytes := parv.getD (klineLoc parv) []

/-- `mo_kline`, with the new `ConfItem` at `addr`; nothing where no K-line is set here. -/
def Klines.moKline (cfg : Config) (source : Oper) (k : Klines) (addr : Nat) (parv : List Bytes) : Option Klines :=
  if ¬ source.kline then none
  else
    match findUserHost (klineMask parv) with
    | none => none
    | some (user, host) =>
      let loc := klineLoc parv + 1
      let remote : Bool := loc + 2 ≤ parv.length ∧ irccmp (parv.getD loc []) [79, 78] = 0
      if remote ∧ ¬ source.remoteBan then none
      else
        let target := parv.getD (loc + 1) []
        let loc := if remote then loc + 2 else loc
        if parv.length ≤ loc ∨ parv.getD loc [] = [] then none
        -- sending it somewhere that doesnt include us
        else if remote ∧ ¬ matchMask target cfg.me then none
        else k.setKline cfg addr user host (max (klineTime parv) 0) false

-- ============================================================================
-- UNKLINE
-- ============================================================================

/-- The user and the host that `mo_unkline` reads. -/
def unklineUserHost (h : Bytes) : Option (Bytes × Bytes) :=
  match strchr 64 h with
  | some (user, host) => some (if user = [] then splat else user, if host = [] then splat else host)
  | none => if h.head? = some 42 ∨ strchr 46 h ≠ none ∨ strchr 58 h ≠ none then some (splat, h) else none

/-- The comparison of the users; a K-line without one is for any. -/
def KConf.forUser (aconf : KConf) (user : Bytes) : Bool := !(aconf.user.any fun u => irccmp user u != 0)

/-- The comparison of `remove_temp_kline`. -/
def KConf.isTemp (user host : Bytes) (aconf : KConf) : Bool := aconf.forUser user && irccmp aconf.host host == 0

/-- The comparison of `remove_perm_kline`. -/
def isPerm (user host : Bytes) (arec : AddressRec KConf) : Bool :=
  arec.type == .kill && !arec.conf.temporary && arec.conf.forUser user && irccmp host arec.conf.host == 0

/-- `remove_temp_kline`, from a list on. -/
def Klines.removeTempKline (k : Klines) (user host : Bytes) : List TempList → Option Klines
  | [] => none
  | i :: rest =>
    match (k.tempKlines i).find? (KConf.isTemp user host) with
    | some aconf =>
      some
        { atable := deleteOneAddressConf rbInetPtonSock k.atable aconf.host aconf
          tempKlines := Function.update k.tempKlines i ((k.tempKlines i).eraseP (KConf.isTemp user host)) }
    | none => k.removeTempKline user host rest

/-- `HOSTHASH_WALK`, up to a record. -/
def hosthashWalk (t : Atable KConf) (p : AddressRec KConf → Bool) : Option (AddressRec KConf) :=
  (List.range atableSize).findSome? fun i => (t i).find? p

/-- `remove_perm_kline`. -/
def Klines.removePermKline (source : Oper) (k : Klines) (user host : Bytes) : Klines :=
  match hosthashWalk k.atable (isPerm user host) with
  | none => k
  | some arec =>
    if arec.conf.locked ∧ ¬ source.admin then k
    else { k with atable := deleteOneAddressConf rbInetPtonSock k.atable host arec.conf }

/-- `mo_unkline`. -/
def Klines.moUnkline (cfg : Config) (source : Oper) (k : Klines) (parv : List Bytes) : Klines :=
  if ¬ source.unkline then k
  else
    match unklineUserHost (parv.getD 1 []) with
    | none => k
    | some (user, host) =>
      let remote : Bool := parv.length > 3 ∧ irccmp (parv.getD 2 []) [79, 78] = 0
      if remote ∧ (¬ source.remoteBan ∨ ¬ matchMask (parv.getD 3 []) cfg.me) then k
      else (k.removeTempKline user host [.min, .hour, .day, .week]).getD (k.removePermKline source user host)

-- ============================================================================
-- Taking a K-line back
-- ============================================================================

/-- No K-line has a user and a host. -/
def Klines.Lacks (k : Klines) (user host : Bytes) : Prop :=
  (∀ r, k.atable.Has r → r.type = .kill → r.conf.forUser user = true → irccmp host r.conf.host ≠ 0) ∧
    ∀ i, ∀ aconf ∈ k.tempKlines i, aconf.forUser user = true → irccmp host aconf.host ≠ 0

/-- No `ConfItem` is at an address. -/
def Klines.Free (k : Klines) (addr : Nat) : Prop :=
  (∀ r, k.atable.Has r → r.conf.addr ≠ addr) ∧ ∀ i, ∀ aconf ∈ k.tempKlines i, aconf.addr ≠ addr

/-- A host that `KLINE` takes as it is. -/
def HostKept (host : Bytes) : Prop := host.length ≤ hostLen ∧ mangleWildcardToCidr host = none

instance (host : Bytes) : Decidable (HostKept host) :=
  inferInstanceAs (Decidable (host.length ≤ hostLen ∧ mangleWildcardToCidr host = none))

/-- A mask that `KLINE` takes as it is. -/
def MaskKept (mask : Bytes) : Prop :=
  match strchr 64 mask with
  | some (user, host) => user.length ≤ userLen ∧ HostKept host
  | none => HostKept mask

-- ============================================================================
-- What the commands read
-- ============================================================================

variable {host mask text : Bytes}

theorem toUpper_of_lt {b : UInt8} (h : toUpper b < 65) : toUpper b = b := by
  have hall : ∀ x : Fin 256, toUpper (UInt8.ofFin x) < 65 → toUpper (UInt8.ofFin x) = UInt8.ofFin x := by
    decide +kernel
  exact hall b.toFin h

/-- Without letters, texts that are equal up to case are equal. -/
theorem eq_of_irccmp {s t : Bytes} (hs : NoNul s) (ht : NoNul t) (hlow : ∀ b ∈ t, toUpper b < 65)
    (h : irccmp s t = 0) : s = t := by
  rw [irccmp_eq_zero_iff hs ht] at h
  have hself : ∀ {l : Bytes}, (∀ b ∈ l, toUpper b < 65) → l.map toUpper = l := fun hl =>
    (List.map_congr_left fun b hb => toUpper_of_lt (hl b hb)).trans (List.map_id _)
  have hlow' : ∀ b ∈ s, toUpper b < 65 := by
    intro b hb
    have hmem := List.mem_map_of_mem (f := toUpper) hb
    rw [h, hself hlow] at hmem
    have hlt := hlow _ hmem
    rwa [toUpper_of_lt hlt] at hlt
  rwa [hself hlow', hself hlow] at h

theorem irccmp_length {s t : Bytes} (hs : NoNul s) (ht : NoNul t) (h : irccmp s t = 0) : s.length = t.length := by
  rw [irccmp_eq_zero_iff hs ht] at h
  rw [← List.length_map toUpper, h, List.length_map]

theorem isPlainByte_low {b : UInt8} (h : isPlainByte b = true) : toUpper b < 65 ∧ b ≠ 42 ∧ b ≠ 0 := by
  have hall : ∀ x : Fin 256, isPlainByte (UInt8.ofFin x) = true →
      toUpper (UInt8.ofFin x) < 65 ∧ UInt8.ofFin x ≠ 42 ∧ UInt8.ofFin x ≠ 0 := by decide +kernel
  exact hall b.toFin h

variable {ns : List Bytes}

/-- A block is of digits, dots and a slash. -/
theorem cidrText_low (hns : ∀ n ∈ ns, isIpNumber n = true) {b : UInt8} (hb : b ∈ cidrText ns) :
    toUpper b < 65 ∧ b ≠ 42 ∧ b ≠ 0 := by
  have hdigit : ∀ {b : UInt8}, isDigit b = true → toUpper b < 65 ∧ b ≠ 42 ∧ b ≠ 0 := fun h =>
    isPlainByte_low (by unfold isPlainByte; rw [h, Bool.true_or])
  obtain hb | hb := List.mem_append.mp hb
  · obtain rfl | ⟨p, hp, hb⟩ := mem_intercalate hb
    · decide
    · obtain hp | hp := List.mem_append.mp hp
      · exact hdigit (List.all_eq_true.mp (isIpNumber_all (hns p hp)) b hb)
      · rw [List.eq_of_mem_replicate hp] at hb
        rw [List.mem_singleton.mp hb]
        decide
  · obtain rfl | hb := List.mem_cons.mp hb
    · decide
    · exact hdigit (decimal_digits _ b hb)

theorem length_cidrText (hns : ∀ n ∈ ns, isIpNumber n = true) (hpos : 0 < ns.length) (hlen : ns.length ≤ 3) :
    (cidrText ns).length < 20 := by
  have hnumber : ∀ n ∈ ns, n.length ≤ 3 := by
    intro n hn
    have hip := hns n hn
    unfold isIpNumber at hip
    split at hip
    · cases hip
    · omega
  match ns, hpos, hlen, hnumber with
  | [n1], _, _, hnumber =>
    have h1 := hnumber n1 (by simp)
    rw [← cidrText_one, List.length_append]
    show n1.length + 8 < 20
    omega
  | [n1, n2], _, _, hnumber =>
    have h1 := hnumber n1 (by simp)
    have h2 := hnumber n2 (by simp)
    rw [← cidrText_two, List.length_append, List.length_append, List.length_cons]
    show n1.length + (n2.length + 1) + 7 < 20
    omega
  | [n1, n2, n3], _, _, hnumber =>
    have h1 := hnumber n1 (by simp)
    have h2 := hnumber n2 (by simp)
    have h3 := hnumber n3 (by simp)
    rw [← cidrText_three, List.length_append, List.length_append, List.length_append, List.length_cons,
      List.length_cons]
    show n1.length + (n2.length + 1) + (n3.length + 1) + 5 < 20
    omega

theorem mem_intercalate_of {parts : List Bytes} {p : Bytes} {b : UInt8} (hp : p ∈ parts) (hb : b ∈ p) :
    b ∈ [46].intercalate parts := by
  induction parts with
  | nil => cases hp
  | cons q parts ih =>
    by_cases hlast : parts = []
    · subst hlast
      rw [List.intercalate_singleton, ← List.mem_singleton.mp hp]
      exact hb
    · rw [List.intercalate_cons_of_ne_nil hlast, List.append_assoc]
      obtain rfl | hp := List.mem_cons.mp hp
      · exact List.mem_append_left _ hb
      · exact List.mem_append_right _ (List.mem_append_right _ (ih hp))

/-- A block is no mask that becomes it: it has a slash, and no star. -/
theorem mangle_ne (h : mangleWildcardToCidr text = some host) : text ≠ host := by
  rintro rfl
  obtain ⟨ns, rest, htokens, -, hlen, hnumbers, hrest, htext⟩ := mangle_cases h
  have hmem : ∀ {b : UInt8}, b ≠ 46 → b ∈ text → ∃ p ∈ ns ++ rest, b ∈ p := by
    intro b hdot hb
    have hjoin : text = [46].intercalate (text.splitOn 46) := (List.intercalate_splitOn 46).symm
    rw [hjoin] at hb
    obtain ⟨p, hp, hbp⟩ := (mem_intercalate hb).resolve_left hdot
    refine ⟨p, ?_, hbp⟩
    rw [← htokens]
    exact List.mem_filter.mpr ⟨hp, decide_eq_true (List.ne_nil_of_mem hbp)⟩
  cases rest with
  | nil =>
    have hslash : (47 : UInt8) ∈ text := by
      rw [htext]
      exact List.mem_append_right _ List.mem_cons_self
    obtain ⟨p, hp, hb⟩ := hmem (by decide) hslash
    rw [List.append_nil] at hp
    have hdigit := List.all_eq_true.mp (isIpNumber_all (hnumbers p hp)) 47 hb
    cases hdigit
  | cons p rest =>
    have hsplat : p = splat := by
      refine hrest p ?_
      rw [show 4 - ns.length = (3 - ns.length) + 1 by omega, List.take_succ_cons]
      exact List.mem_cons_self
    have htoken : p ∈ dotTokens text := by
      rw [htokens]
      exact List.mem_append_right ns List.mem_cons_self
    have hstar : (42 : UInt8) ∈ text := by
      have hpart := mem_intercalate_of (List.mem_filter.mp htoken).1 (hsplat ▸ List.mem_cons_self : (42 : UInt8) ∈ p)
      rwa [List.intercalate_splitOn] at hpart
    rw [htext] at hstar
    exact (cidrText_low hnumbers hstar).2.1 rfl

theorem klineHost_of_kept (h : HostKept host) : klineHost host = host := by
  unfold klineHost
  rw [h.2, Option.getD_none, strlcpy_of_lt (Nat.lt_succ_of_le h.1)]

/-- A host that is changed is not found as it was. -/
theorem irccmp_klineHost (hnul : NoNul host) (h : ¬ HostKept host) : irccmp host (klineHost host) ≠ 0 := by
  intro hsame
  unfold klineHost at hsame
  cases hmangle : mangleWildcardToCidr host with
  | none =>
    have hlong : hostLen < host.length := not_le.mp fun hle => h ⟨hle, hmangle⟩
    rw [hmangle, Option.getD_none] at hsame
    have hlen := irccmp_length hnul (hnul.take _) hsame
    have hcut := strlcpy_length_lt host (show 0 < hostLen + 1 by decide)
    unfold strlcpy at hcut
    omega
  | some c =>
    obtain ⟨ns, rest, -, hpos, hlen, hnumbers, -, rfl⟩ := mangle_cases hmangle
    have hshort := length_cidrText hnumbers hpos hlen
    have hfits : (cidrText ns).length < hostLen + 1 := hshort.trans (by decide)
    rw [hmangle, Option.getD_some, strlcpy_of_lt hfits] at hsame
    exact mangle_ne hmangle (eq_of_irccmp hnul (fun hmem => (cidrText_low hnumbers hmem).2.2 rfl)
      (fun b hb => (cidrText_low hnumbers hb).1) hsame)

theorem hostKept_nil : HostKept [] := by decide

/-- What `UNKLINE` reads of a mask that `KLINE` has read: the same where the mask is taken
    as it is, and otherwise nothing equal. -/
theorem unkline_reads {user : Bytes} (hnul : NoNul mask) (h : findUserHost mask = some (user, host)) :
    ∃ user' host', unklineUserHost mask = some (user', host') ∧ (MaskKept mask → user' = user ∧ host' = host) ∧
      (¬ MaskKept mask → irccmp user' user = 0 → irccmp host' host ≠ 0) := by
  unfold findUserHost at h
  unfold unklineUserHost MaskKept
  cases hat : strchr 64 mask with
  | none =>
    rw [hat] at h
    dsimp only at h ⊢
    by_cases hplain : strchr 46 mask = none ∧ strchr 58 mask = none
    · rw [if_pos hplain] at h
      cases h
    · rw [if_neg hplain] at h
      obtain ⟨rfl, rfl⟩ := Prod.mk.inj (Option.some.inj h)
      have hmask : mask.head? = some 42 ∨ strchr 46 mask ≠ none ∨ strchr 58 mask ≠ none :=
        Or.inr (not_and_or.mp hplain)
      rw [if_pos hmask]
      exact ⟨splat, mask, rfl, fun hkept => ⟨rfl, (klineHost_of_kept hkept).symm⟩,
        fun hchanged _ => irccmp_klineHost hnul hchanged⟩
  | some parts =>
    obtain ⟨u, hostp⟩ := parts
    rw [hat] at h
    obtain ⟨rfl, rfl⟩ := Prod.mk.inj (Option.some.inj h)
    obtain ⟨rfl, -⟩ := strchr_eq_some hat
    have hnulu : NoNul u := fun hmem => hnul (List.mem_append_left _ hmem)
    have hnulh : NoNul hostp := fun hmem => hnul (List.mem_append_right _ (List.mem_cons_of_mem _ hmem))
    refine ⟨_, _, rfl, fun hkept => ⟨?_, ?_⟩, fun hchanged huser => ?_⟩
    · rw [strlcpy_of_lt (Nat.lt_succ_of_le hkept.1)]
    · rw [klineHost_of_kept hkept.2]
    · dsimp only at hchanged
      -- the user is found, so that it is the host that is changed
      have hshort : u.length ≤ userLen := by
        by_contra hlong
        have hne : u ≠ [] := by
          rintro rfl
          exact hlong (Nat.zero_le _)
        rw [if_neg hne, if_neg hne] at huser
        have hlen := irccmp_length hnulu (hnulu.take _) huser
        have hcut := strlcpy_length_lt u (show 0 < userLen + 1 by decide)
        unfold strlcpy at hcut
        omega
      have hhost : ¬ HostKept hostp := fun hkept => hchanged ⟨hshort, hkept⟩
      have hne : hostp ≠ [] := by
        rintro rfl
        exact hhost hostKept_nil
      rw [if_neg hne, if_neg hne]
      exact irccmp_klineHost hnulh hhost

-- ============================================================================
-- What the commands do to the table
-- ============================================================================

variable {k k' : Klines} {addr : Nat} {user : Bytes} {t : Atable KConf} {r : AddressRec KConf} {aconf : KConf}
  {p : AddressRec KConf → Bool}

/-- The record of a permanent K-line. -/
def klineRec (addr : Nat) (user host : Bytes) : AddressRec KConf :=
  mkAddressRec rbInetPtonSock host .kill user ⟨addr, some user, host, false, false⟩

/-- A permanent `KLINE` puts its record in front of its chain. -/
theorem moKline_spec {cfg : Config} {source : Oper} {parv : List Bytes}
    (h : k.moKline cfg source addr parv = some k') (hperm : klineTime parv ≤ 0) :
    ∃ user host, findUserHost (klineMask parv) = some (user, host) ∧
      k' = { k with atable := addConfByAddress rbInetPtonSock k.atable host .kill user ⟨addr, some user, host, false, false⟩ } := by
  unfold Klines.moKline at h
  obtain ⟨-, h⟩ := Option.ite_none_left_eq_some.mp h
  cases hread : findUserHost (klineMask parv) with
  | none =>
    rw [hread] at h
    cases h
  | some read =>
    obtain ⟨user, host⟩ := read
    rw [hread] at h
    dsimp only at h
    obtain ⟨-, h⟩ := Option.ite_none_left_eq_some.mp h
    obtain ⟨-, h⟩ := Option.ite_none_left_eq_some.mp h
    obtain ⟨-, h⟩ := Option.ite_none_left_eq_some.mp h
    rw [Int.max_eq_right hperm] at h
    unfold Klines.setKline at h
    obtain ⟨-, h⟩ := Option.ite_none_left_eq_some.mp h
    obtain ⟨-, h⟩ := Option.ite_none_left_eq_some.mp h
    rw [if_neg (lt_irrefl 0)] at h
    exact ⟨user, host, rfl, (Option.some.inj h).symm⟩

theorem hashIpv6Loop_lt (a : IpAddr) (fuel n bits v : Nat) : hashIpv6Loop a fuel n bits v < atableSize := by
  induction fuel generalizing n bits v with
  | zero => exact Nat.mod_lt _ (by decide)
  | succ fuel ih =>
    unfold hashIpv6Loop
    split
    · exact ih _ _ _
    · exact Nat.mod_lt _ (by decide)

theorem chain_lt (r : AddressRec KConf) : r.chain < atableSize := by
  have hipv4 : ∀ (a : IpAddr) (bits : Nat), hashIpv4 a bits < atableSize := by
    intro a bits
    unfold hashIpv4
    split
    · decide
    · exact Nat.mod_lt _ (by decide)
  have htext : ∀ s : Bytes, hashText s < atableSize := fun s => Nat.mod_lt _ (by decide)
  unfold AddressRec.chain
  split
  · split
    · exact hashIpv6Loop_lt _ 16 0 _ 0
    · exact hipv4 _ _
  · unfold getMaskHash
    dsimp only
    split
    · exact htext _
    · exact htext _

theorem hosthashWalk_some (h : hosthashWalk t p = some r) : t.Has r ∧ p r = true := by
  obtain ⟨hv, -, hfind⟩ := List.exists_of_findSome?_eq_some h
  exact ⟨⟨hv, List.mem_of_find?_eq_some hfind⟩, List.find?_some hfind⟩

/-- A walk ends at the only record that it looks for. -/
theorem hosthashWalk_eq {hv : Nat} (hv_lt : hv < atableSize) (hr : r ∈ t hv) (hp : p r = true)
    (honly : ∀ r', t.Has r' → p r' = true → r' = r) : hosthashWalk t p = some r := by
  cases hwalk : hosthashWalk t p with
  | none =>
    have hnone := List.findSome?_eq_none_iff.mp hwalk hv (List.mem_range.mpr hv_lt)
    exact absurd hp (List.find?_eq_none.mp hnone r hr)
  | some r' =>
    obtain ⟨hhas, hp'⟩ := hosthashWalk_some hwalk
    rw [honly r' hhas hp']

/-- Removing another `ConfItem` leaves a record where it is. -/
theorem has_deleteOneAddressConf {address : Bytes} (h : t.Has r) (hne : r.conf ≠ aconf) :
    (deleteOneAddressConf rbInetPtonSock t address aconf).Has r := by
  obtain ⟨hv, hr⟩ := h
  refine ⟨hv, ?_⟩
  unfold deleteOneAddressConf
  by_cases hchain : hv = chainOf rbInetPtonSock address
  · subst hchain
    rw [Function.update_self]
    exact (List.mem_eraseP_of_neg (by rw [decide_eq_true_iff]; exact hne)).mpr hr
  · rw [Function.update_of_ne hchain]
    exact hr

-- ============================================================================
-- Taking back
-- ============================================================================

theorem removeTempKline_none (h : ∀ i, ∀ aconf ∈ k.tempKlines i, KConf.isTemp user host aconf = false)
    (l : List TempList) : k.removeTempKline user host l = none := by
  induction l with
  | nil => rfl
  | cons i l ih =>
    have hfind : (k.tempKlines i).find? (KConf.isTemp user host) = none :=
      List.find?_eq_none.mpr fun aconf haconf => Bool.not_eq_true _ ▸ h i aconf haconf
    unfold Klines.removeTempKline
    rw [hfind]
    exact ih

/-- A temporary K-line that is removed takes no other record with it. -/
theorem removeTempKline_has (hr : k.atable.Has r) (hne : ∀ i, ∀ aconf ∈ k.tempKlines i, r.conf ≠ aconf)
    {l : List TempList} (h : k.removeTempKline user host l = some k') : k'.atable.Has r := by
  induction l with
  | nil => cases h
  | cons i l ih =>
    unfold Klines.removeTempKline at h
    cases hfind : (k.tempKlines i).find? (KConf.isTemp user host) with
    | none =>
      rw [hfind] at h
      exact ih h
    | some aconf =>
      rw [hfind] at h
      obtain rfl := Option.some.inj h
      exact has_deleteOneAddressConf hr (hne i aconf (List.mem_of_find?_eq_some hfind))

theorem removePermKline_has {source : Oper} (hr : k.atable.Has r)
    (hne : ∀ r', k.atable.Has r' → isPerm user host r' = true → r.conf ≠ r'.conf) :
    (k.removePermKline source user host).atable.Has r := by
  unfold Klines.removePermKline
  cases hwalk : hosthashWalk k.atable (isPerm user host) with
  | none => exact hr
  | some r' =>
    obtain ⟨hr', hp⟩ := hosthashWalk_some hwalk
    dsimp only
    split
    · exact hr
    · exact has_deleteOneAddressConf hr (hne r' hr' hp)

/-- The records after a K-line is added. -/
theorem has_addConf {aconf : KConf} (h : (addConfByAddress rbInetPtonSock t host .kill user aconf).Has r) :
    r = mkAddressRec rbInetPtonSock host .kill user aconf ∨ t.Has r := by
  obtain ⟨hv, hr⟩ := h
  unfold addConfByAddress at hr
  by_cases hchain : hv = (mkAddressRec rbInetPtonSock host .kill user aconf).chain
  · subst hchain
    rw [Function.update_self] at hr
    exact (List.mem_cons.mp hr).imp_right fun hr => ⟨_, hr⟩
  · rw [Function.update_of_ne hchain] at hr
    exact Or.inr ⟨hv, hr⟩

theorem isPerm_iff {user' host' : Bytes} : isPerm user' host' r = true ↔
    r.type = .kill ∧ r.conf.temporary = false ∧ r.conf.forUser user' = true ∧ irccmp host' r.conf.host = 0 := by
  unfold isPerm
  rw [Bool.and_eq_true, Bool.and_eq_true, Bool.and_eq_true, beq_iff_eq, beq_iff_eq, Bool.not_eq_true', and_assoc,
    and_assoc]

theorem forUser_some {u : Bytes} (h : aconf.user = some u) : aconf.forUser user = true ↔ irccmp user u = 0 := by
  unfold KConf.forUser
  rw [h, Option.any_some, Bool.not_eq_true', bne_eq_false_iff_eq]

/-- A new permanent K-line. -/
def Klines.added (k : Klines) (addr : Nat) (user host : Bytes) : Klines :=
  { k with atable := addConfByAddress rbInetPtonSock k.atable host .kill user ⟨addr, some user, host, false, false⟩ }

theorem added_atable : (k.added addr user host).atable =
    Function.update k.atable (klineRec addr user host).chain
      (klineRec addr user host :: k.atable (klineRec addr user host).chain) := rfl

theorem mem_added : klineRec addr user host ∈ (k.added addr user host).atable (klineRec addr user host).chain := by
  rw [added_atable, Function.update_self]
  exact List.mem_cons_self

theorem has_added (h : (k.added addr user host).atable.Has r) : r = klineRec addr user host ∨ k.atable.Has r :=
  has_addConf h

theorem added_tempKlines : (k.added addr user host).tempKlines = k.tempKlines := rfl

/-- With the user and the host as they are stored the new record is the one that is found. -/
theorem removePermKline_added {source : Oper} (hlacks : k.Lacks user host) :
    (k.added addr user host).removePermKline source user host = k := by
  have hwalk : hosthashWalk (k.added addr user host).atable (isPerm user host) = some (klineRec addr user host) := by
    refine hosthashWalk_eq (chain_lt (klineRec addr user host)) mem_added ?_ fun r hr hp => ?_
    · rw [isPerm_iff]
      exact ⟨rfl, rfl, (forUser_some rfl).mpr (irccmp_self user), irccmp_self host⟩
    · obtain ⟨htype, -, huser, hhost⟩ := isPerm_iff.mp hp
      exact (has_added hr).resolve_right fun hold => hlacks.1 r hold htype huser hhost
  have hdelete : deleteOneAddressConf rbInetPtonSock (k.added addr user host).atable host
      (klineRec addr user host).conf = k.atable := by
    have hchain : chainOf rbInetPtonSock host = (klineRec addr user host).chain := rfl
    have herase : (klineRec addr user host :: k.atable (klineRec addr user host).chain).eraseP
        (fun r => decide (r.conf = (klineRec addr user host).conf)) = k.atable (klineRec addr user host).chain :=
      List.eraseP_cons_of_pos (decide_eq_true rfl)
    unfold deleteOneAddressConf
    rw [hchain, added_atable]
    dsimp only
    rw [Function.update_self, herase, Function.update_idem, Function.update_eq_self]
  unfold Klines.removePermKline
  rw [hwalk]
  dsimp only
  rw [if_neg (fun h => Bool.false_ne_true h.1), hdelete]
  rfl

theorem lacks_temp (hlacks : k.Lacks user host) (i : TempList) : ∀ aconf ∈ k.tempKlines i,
    KConf.isTemp user host aconf = false := by
  intro aconf haconf
  rw [Bool.eq_false_iff]
  intro htemp
  unfold KConf.isTemp at htemp
  rw [Bool.and_eq_true, beq_iff_eq] at htemp
  exact hlacks.2 i aconf haconf htemp.1 ((irccmp_eq_zero_comm _ _).mp htemp.2)

/-- `UNKLINE` with the mask of a new K-line takes it back exactly where the mask was taken as
    it is. -/
theorem moUnkline_added (cfg : Config) {source : Oper} (cmd : Bytes) (hnul : NoNul mask) (hfree : k.Free addr)
    (hread : findUserHost mask = some (user, host)) (hlacks : k.Lacks user host) (hallowed : source.unkline = true) :
    (k.added addr user host).moUnkline cfg source [cmd, mask] = k ↔ MaskKept mask := by
  obtain ⟨user', host', hread', hsame, hother⟩ := unkline_reads hnul hread
  have hunkline : (k.added addr user host).moUnkline cfg source [cmd, mask] =
      ((k.added addr user host).removeTempKline user' host' [.min, .hour, .day, .week]).getD
        ((k.added addr user host).removePermKline source user' host') := by
    unfold Klines.moUnkline
    rw [if_neg (not_not.mpr hallowed)]
    show (match unklineUserHost (mask) with
      | none => _
      | some (user, host) => _) = _
    rw [hread']
    rfl
  rw [hunkline]
  constructor
  · intro hback
    by_contra hchanged
    -- the new record is not equal to what is looked for, so it stays
    have hnot : ∀ {r : AddressRec KConf}, isPerm user' host' r = true → r ≠ klineRec addr user host := by
      rintro r hp rfl
      obtain ⟨-, -, huser, hhost⟩ := isPerm_iff.mp hp
      exact hother hchanged ((forUser_some rfl).mp huser) hhost
    have hnew : (k.added addr user host).atable.Has (klineRec addr user host) := ⟨_, mem_added⟩
    have hstays : (((k.added addr user host).removeTempKline user' host' [.min, .hour, .day, .week]).getD
        ((k.added addr user host).removePermKline source user' host')).atable.Has (klineRec addr user host) := by
      cases htemp : (k.added addr user host).removeTempKline user' host' [.min, .hour, .day, .week] with
      | some k'' =>
        exact removeTempKline_has hnew (fun i aconf haconf heq => hfree.2 i aconf haconf (congrArg KConf.addr heq).symm) htemp
      | none =>
        rw [Option.getD_none]
        refine removePermKline_has hnew fun r' hr' hp heq => ?_
        obtain heq' | hold := has_added hr'
        · exact hnot hp heq'
        · exact hfree.1 r' hold (congrArg KConf.addr heq).symm
    rw [hback] at hstays
    exact hfree.1 _ hstays rfl
  · intro hkept
    obtain ⟨rfl, rfl⟩ := hsame hkept
    have htemps : ∀ i, ∀ aconf ∈ (k.added addr user' host').tempKlines i, KConf.isTemp user' host' aconf = false := by
      rw [added_tempKlines]
      exact lacks_temp hlacks
    rw [removeTempKline_none htemps, Option.getD_none, removePermKline_added hlacks]

/-- A permanent `KLINE` is undone by an `UNKLINE` with the same mask exactly where the mask
    is taken as it is. -/
theorem unkline_undoes_iff (cfg : Config) (source source' : Oper) (k k' : Klines) (addr : Nat) (parv : List Bytes)
    (cmd : Bytes) (hnul : NoNul (klineMask parv)) (hfree : k.Free addr)
    (hperm : klineTime parv ≤ 0) (hadd : k.moKline cfg source addr parv = some k')
    (hlacks : ∀ user host, findUserHost (klineMask parv) = some (user, host) → k.Lacks user host)
    (hallowed : source'.unkline = true) :
    k'.moUnkline cfg source' [cmd, klineMask parv] = k ↔ MaskKept (klineMask parv) := by
  obtain ⟨user, host, hread, rfl⟩ := moKline_spec hadd hperm
  exact moUnkline_added cfg cmd hnul hfree hread (hlacks user host hread) hallowed

/-- A server without K-lines. -/
def noKlines : Klines := ⟨fun _ => [], fun _ => []⟩

/-- An operator with all privileges. -/
def netAdmin : Oper := ⟨true, true, true, true⟩

/-- Four characters that are no wildcards, and K-lines that are not compared. -/
def plainConfig : Config := ⟨[105, 46, 106], 4, false⟩

/-- `KLINE bad@host.org :no`. -/
def klineBad : List Bytes := [[], [98, 97, 100, 64, 104, 111, 115, 116, 46, 111, 114, 103], [110, 111]]

theorem noKlines_free (addr : Nat) : noKlines.Free addr :=
  ⟨fun _ ⟨_, hr⟩ => (by cases hr), fun _ _ h => (by cases h)⟩

theorem noKlines_lacks (user host : Bytes) : noKlines.Lacks user host :=
  ⟨fun _ ⟨_, hr⟩ => (by cases hr), fun _ _ h => (by cases h)⟩

theorem unkline_undoes_bad : NoNul (klineMask klineBad) ∧ noKlines.Free 1 ∧ klineTime klineBad ≤ 0 ∧
    noKlines.moKline plainConfig netAdmin 1 klineBad =
      some (noKlines.added 1 [98, 97, 100] [104, 111, 115, 116, 46, 111, 114, 103]) ∧
    netAdmin.unkline = true ∧
    ((noKlines.added 1 [98, 97, 100] [104, 111, 115, 116, 46, 111, 114, 103]).moUnkline plainConfig netAdmin
      [[], klineMask klineBad] = noKlines ↔ MaskKept (klineMask klineBad)) := by
  have hadd : noKlines.moKline plainConfig netAdmin 1 klineBad =
      some (noKlines.added 1 [98, 97, 100] [104, 111, 115, 116, 46, 111, 114, 103]) := by rfl
  exact ⟨by decide, noKlines_free 1, by decide, hadd, rfl,
    unkline_undoes_iff plainConfig netAdmin netAdmin noKlines _ 1 klineBad [] (by decide) (noKlines_free 1) (by decide)
      hadd (fun user host _ => noKlines_lacks user host) rfl⟩

/-- `KLINE *@1.2.3.* :no`. -/
def klineBlock : List Bytes := [[], [42, 64, 49, 46, 50, 46, 51, 46, 42], [110, 111]]

theorem not_unkline_undoes : ¬ ∀ (cfg : Config) (source source' : Oper) (k k' : Klines) (addr : Nat)
    (parv : List Bytes) (cmd : Bytes), NoNul (klineMask parv) → k.Free addr → klineTime parv ≤ 0 →
    k.moKline cfg source addr parv = some k' →
    (∀ user host, findUserHost (klineMask parv) = some (user, host) → k.Lacks user host) →
    source'.unkline = true → k'.moUnkline cfg source' [cmd, klineMask parv] = k := by
  intro h
  have hadd : noKlines.moKline plainConfig netAdmin 1 klineBlock =
      some (noKlines.added 1 [42] [49, 46, 50, 46, 51, 46, 48, 47, 50, 52]) := by rfl
  have hback := h plainConfig netAdmin netAdmin noKlines _ 1 klineBlock [] (by decide) (noKlines_free 1) (by decide)
    hadd (fun user host _ => noKlines_lacks user host) rfl
  rw [moUnkline_added plainConfig [] (by decide) (noKlines_free 1) (by rfl) (noKlines_lacks _ _) rfl] at hback
  exact absurd hback.2.2 (by decide)

end Bluebox.Kline
