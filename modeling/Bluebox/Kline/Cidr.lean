/-
  Bluebox.Kline.Cidr

  K-lines of numbers and stars as CIDR blocks (`mangle_wildcard_to_cidr` in
  `modules/m_kline.c`), against the language of the mask.

  `rb_strtok_r` passes over empty parts of the mask, what follows the fourth part is not
  looked at, and numbers may have leading zeros.  Such masks are in the language of no
  address, and yet become a block.
-/
import Bluebox.Atable
import Bluebox.Bandb.Params
import Bluebox.Glob.Match
import Bluebox.Inet

namespace Bluebox.Kline

open Bluebox.Lib Bluebox.Lib.Glob Bluebox.Glob

-- ============================================================================
-- mangle_wildcard_to_cidr
-- ============================================================================

/-- `is_ip_number`. -/
def isIpNumber (number : Bytes) : Bool := if number.length > 3 then false else number.all isDigit

/-- What `rb_strtok_r` gives for dots. -/
def dotTokens (text : Bytes) : List Bytes := (text.splitOn 46).filter (· ≠ [])

/-- `splat`. -/
def splat : Bytes := [42]

/-- A token that is not there, or a star. -/
def nullOrSplat (n : Option Bytes) : Bool := n.all (· == splat)

/-- `mangle_wildcard_to_cidr`.  The result fits `buf`. -/
def mangleWildcardToCidr (text : Bytes) : Option Bytes :=
  match dotTokens text with
  | [] => none
  | n1 :: rest =>
    let n2 := rest[0]?
    let n3 := rest[1]?
    let n4 := rest[2]?
    if n1 = splat ∨ isIpNumber n1 = false then none
    -- %s.0.0.0/8
    else if nullOrSplat n2 ∧ (n3 = none ∨ n3 = some splat ∧ nullOrSplat n4) then
      some (n1 ++ [46, 48, 46, 48, 46, 48, 47, 56])
    else if ¬ n2.any isIpNumber then none
    -- %s.%s.0.0/16
    else if nullOrSplat n3 ∧ nullOrSplat n4 then
      some (n1 ++ 46 :: n2.getD [] ++ [46, 48, 46, 48, 47, 49, 54])
    else if ¬ n3.any isIpNumber then none
    -- %s.%s.%s.0/24
    else if nullOrSplat n4 then
      some (n1 ++ 46 :: n2.getD [] ++ 46 :: n3.getD [] ++ [46, 48, 47, 50, 52])
    else none

-- ============================================================================
-- Addresses
-- ============================================================================

/-- A number in decimal. -/
def decimal (n : Nat) : Bytes := decDigits (n + 1) n

/-- An IPv4 address. -/
structure Ipv4 where
  octets : List Nat
  length_octets : octets.length = 4
  octet_lt : ∀ o ∈ octets, o < 256

/-- The bits of an address. -/
def Ipv4.addr (a : Ipv4) : IpAddr := ipOfBytes false a.octets

/-- The dotted decimal text of an address. -/
def Ipv4.text (a : Ipv4) : Bytes := [46].intercalate (a.octets.map decimal)

/-- The addresses of a block are those whose text is in the language of a mask. -/
def SameAddresses (m : Bytes) (mask : Netmask) : Prop :=
  ∀ a : Ipv4, a.addr.compWithMask mask.addr mask.bits = true ↔ InLang m a.text

/-- A number that is written with a zero in front. -/
def ZeroLed (part : Bytes) : Prop := part.all isDigit = true ∧ 2 ≤ part.length ∧ part.head? = some 48

/-- The mask has at most four parts between dots, none empty, and no number with a zero in
    front. -/
def Plain (m : Bytes) : Prop :=
  (m.splitOn 46).length ≤ 4 ∧ [] ∉ m.splitOn 46 ∧ ∀ part ∈ m.splitOn 46, ¬ ZeroLed part

-- ============================================================================
-- Decimal numbers
-- ============================================================================

variable {b : UInt8} {n m w x y part : Bytes} {parts : List Bytes} {k v fuel : Nat}

theorem ofNat_digit (h : isDigit b = true) : UInt8.ofNat (48 + (b.toNat - 48)) = b ∧ b.toNat - 48 < 10 := by
  have hall : ∀ x : Fin 256, isDigit (UInt8.ofFin x) = true →
      UInt8.ofNat (48 + ((UInt8.ofFin x).toNat - 48)) = UInt8.ofFin x ∧ (UInt8.ofFin x).toNat - 48 < 10 := by
    decide +kernel
  exact hall b.toFin h

theorem le_foldl_digits (n : Bytes) (v : Nat) : v ≤ n.foldl (fun n b => 10 * n + (b.toNat - 48)) v := by
  induction n generalizing v with
  | nil => exact le_refl v
  | cons b n ih =>
    rw [List.foldl_cons]
    have hle := ih (10 * v + (b.toNat - 48))
    omega

theorem digit_sub_pos (h : isDigit b = true) (hne : b ≠ 48) : 0 < b.toNat - 48 := by
  have hall : ∀ x : Fin 256, isDigit (UInt8.ofFin x) = true → UInt8.ofFin x ≠ 48 → 0 < (UInt8.ofFin x).toNat - 48 := by
    decide +kernel
  exact hall b.toFin h hne

/-- Digits without a zero in front are what the number of their value is written as. -/
theorem decDigits_foldl (hdigits : ∀ b ∈ n, isDigit b = true) (hne : n ≠ []) (hzero : n.head? = some 48 → n.length = 1)
    (hfuel : n.foldl (fun n b => 10 * n + (b.toNat - 48)) 0 < fuel) :
    decDigits fuel (n.foldl (fun n b => 10 * n + (b.toNat - 48)) 0) = n := by
  induction n using List.reverseRecOn generalizing fuel with
  | nil => exact absurd rfl hne
  | append_singleton n d ih =>
    obtain ⟨hd, hlt⟩ := ofNat_digit (hdigits d (List.mem_append_right n List.mem_cons_self))
    rw [List.foldl_append, List.foldl_cons, List.foldl_nil] at hfuel ⊢
    obtain ⟨fuel, rfl⟩ : ∃ f, fuel = f + 1 := ⟨fuel - 1, by omega⟩
    cases n with
    | nil =>
      rw [List.foldl_nil, decDigits, if_pos (by omega), Nat.mul_zero, Nat.zero_add, hd]
      rfl
    | cons c n =>
      have hc : isDigit c = true := hdigits c List.mem_cons_self
      have hfirst : c ≠ 48 := by
        rintro rfl
        have hone := hzero rfl
        rw [List.length_append, List.length_cons, List.length_singleton] at hone
        omega
      have hpos : 0 < (c :: n).foldl (fun n b => 10 * n + (b.toNat - 48)) 0 := by
        have hle := le_foldl_digits n (10 * 0 + (c.toNat - 48))
        have hc' := digit_sub_pos hc hfirst
        rw [List.foldl_cons]
        omega
      have hrest : decDigits fuel ((c :: n).foldl (fun n b => 10 * n + (b.toNat - 48)) 0) = c :: n :=
        ih (fun b hb => hdigits b (List.mem_append_left _ hb)) (List.cons_ne_nil c n)
          (fun h => absurd (Option.some.inj h) hfirst) (by omega)
      generalize (c :: n).foldl (fun n b => 10 * n + (b.toNat - 48)) 0 = v at hpos hrest hfuel
      have hdiv : (10 * v + (d.toNat - 48)) / 10 = v := by omega
      have hmod : (10 * v + (d.toNat - 48)) % 10 = d.toNat - 48 := by omega
      rw [decDigits, if_neg (by omega), hdiv, hmod, hd, hrest]

theorem decDigits_head (hpos : 0 < v) (hfuel : v < fuel) : (decDigits fuel v).head? ≠ some 48 := by
  induction fuel generalizing v with
  | zero => exact absurd hfuel (Nat.not_lt_zero _)
  | succ fuel ih =>
    unfold decDigits
    by_cases hlt : v < 10
    · rw [if_pos hlt]
      intro h
      have hv := congrArg UInt8.toNat (Option.some.inj h)
      rw [toNat_digit hlt] at hv
      have h48 : (48 : UInt8).toNat = 48 := rfl
      omega
    · rw [if_neg hlt]
      intro h
      obtain ⟨fuel, rfl⟩ : ∃ f, fuel = f + 1 := ⟨fuel - 1, by omega⟩
      rw [List.head?_append_of_ne_nil _ (decDigits_ne_nil fuel (v / 10))] at h
      exact ih (by omega) (by omega) h

theorem decimal_digits (v : Nat) : ∀ b ∈ decimal v, isDigit b = true := decDigits_isDigit (v + 1) v

theorem decimal_ne_nil (v : Nat) : decimal v ≠ [] := decDigits_ne_nil v v

theorem decimal_not_zeroLed (v : Nat) : ¬ ZeroLed (decimal v) := by
  rintro ⟨-, hlen, hhead⟩
  by_cases hzero : v = 0
  · rw [hzero] at hlen
    exact absurd hlen (by decide)
  · exact decDigits_head (by omega) (Nat.lt_succ_self v) hhead

/-- The digits that a number is written as. -/
theorem decimal_eq_iff (hdigits : part.all isDigit = true) (hne : part ≠ []) :
    decimal v = part ↔ digitsVal part = v ∧ ¬ ZeroLed part := by
  have hdigits' := List.all_eq_true.mp hdigits
  constructor
  · rintro rfl
    exact ⟨digitsVal_decDigits v, decimal_not_zeroLed v⟩
  · rintro ⟨rfl, hzero⟩
    have hone : part.head? = some 48 → part.length = 1 := by
      intro hhead
      have hpos := List.length_pos_iff.mpr hne
      by_contra hlen
      exact hzero ⟨hdigits, by omega, hhead⟩
    unfold decimal
    rw [digitsVal_of_digits hdigits']
    exact decDigits_foldl hdigits' hne hone (Nat.lt_succ_self _)

-- ============================================================================
-- Masks of digits, dots and stars
-- ============================================================================

/-- A digit or a dot. -/
def isPlainByte (b : UInt8) : Bool := isDigit b || b == 46

theorem toLower_of_lt (h : toLower b < 65) : toLower b = b := by
  have hall : ∀ x : Fin 256, toLower (UInt8.ofFin x) < 65 → toLower (UInt8.ofFin x) = UInt8.ofFin x := by
    decide +kernel
  exact hall b.toFin h

/-- Digits and dots stand for themselves. -/
theorem token_plain (h : isPlainByte b = true) : ∃ test, token b = .one test ∧ ∀ a, test a = true ↔ a = b := by
  have hall : ∀ x : Fin 256, isPlainByte (UInt8.ofFin x) = true →
      UInt8.ofFin x ≠ star ∧ UInt8.ofFin x ≠ quest ∧ toLower (UInt8.ofFin x) = UInt8.ofFin x ∧ UInt8.ofFin x < 65 := by
    decide +kernel
  obtain ⟨hstar, hquest, hlower, hlt⟩ := hall b.toFin h
  refine ⟨_, token_of_ne hstar, fun a => ?_⟩
  have hquest' : (b == quest) = false := beq_eq_false_iff_ne.mpr hquest
  rw [hquest', Bool.false_or, beq_iff_eq]
  constructor
  · intro ha
    have ha' : toLower a = b := ha.symm.trans hlower
    exact (toLower_of_lt (ha' ▸ hlt)).symm.trans ha'
  · rintro rfl
    rfl

theorem isPlainByte_dot : ∀ b ∈ [(46 : UInt8)], isPlainByte b = true := List.forall_mem_singleton.mpr (by decide)

theorem inLang_plain_append (hx : ∀ b ∈ x, isPlainByte b = true) :
    InLang (x ++ y) w ↔ ∃ u, w = x ++ u ∧ InLang y u := by
  induction x generalizing w with
  | nil => exact ⟨fun h => ⟨w, rfl, h⟩, fun ⟨u, hw, h⟩ => hw ▸ h⟩
  | cons b x ih =>
    obtain ⟨test, htoken, htest⟩ := token_plain (hx b List.mem_cons_self)
    have ih' : ∀ {w}, InLang (x ++ y) w ↔ ∃ u, w = x ++ u ∧ InLang y u :=
      ih fun c hc => hx c (List.mem_cons_of_mem b hc)
    have hcons : InLang (b :: x ++ y) w ↔ Denotes (.one test :: (x ++ y).map token) w := by
      unfold InLang
      rw [List.cons_append, List.map_cons, htoken]
    rw [hcons]
    constructor
    · rintro ⟨a, v, rfl, ha, hv⟩
      obtain ⟨u, rfl, hu⟩ := ih'.mp hv
      rw [(htest a).mp ha]
      exact ⟨u, rfl, hu⟩
    · rintro ⟨u, rfl, hu⟩
      exact ⟨b, x ++ u, rfl, (htest b).mpr rfl, ih'.mpr ⟨u, rfl, hu⟩⟩

theorem splitOn_dot_cons (b : UInt8) (s : Bytes) :
    (b :: s).splitOn 46 = if b = 46 then [] :: s.splitOn 46 else (s.splitOn 46).modifyHead (b :: ·) := by
  rw [List.splitOn_cons_eq_if_modifyHead]
  by_cases hb : b = 46
  · rw [if_pos hb, if_pos (beq_iff_eq.mpr hb)]
  · rw [if_neg hb, if_neg (fun h => hb (beq_iff_eq.mp h))]

/-- Another byte in front gives no fewer parts, and the parts behind the first one stay. -/
theorem splitOn_dot_le (b : UInt8) (s : Bytes) : (s.splitOn 46).length ≤ ((b :: s).splitOn 46).length ∧
    ([] ∈ (s.splitOn 46).tail → [] ∈ ((b :: s).splitOn 46).tail) := by
  rw [splitOn_dot_cons]
  split
  · exact ⟨Nat.le_succ _, List.mem_of_mem_tail⟩
  · rw [List.length_modifyHead, List.tail_modifyHead]
    exact ⟨le_refl _, id⟩

theorem splitOn_dot_append_le (u s : Bytes) : (s.splitOn 46).length ≤ ((u ++ s).splitOn 46).length ∧
    ([] ∈ (s.splitOn 46).tail → [] ∈ ((u ++ s).splitOn 46).tail) := by
  induction u with
  | nil => exact ⟨le_refl _, id⟩
  | cons b u ih =>
    have hstep := splitOn_dot_le b (u ++ s)
    exact ⟨ih.1.trans hstep.1, fun h => hstep.2 (ih.2 h)⟩

theorem nil_mem_splitOn_dot_cons {s : Bytes} (hb : b ≠ 46) :
    [] ∈ (b :: s).splitOn 46 ↔ [] ∈ (s.splitOn 46).tail := by
  rw [splitOn_dot_cons, if_neg hb]
  obtain ⟨p, ps, hs⟩ := List.exists_cons_of_ne_nil (List.splitOn_ne_nil 46 s)
  rw [hs, List.modifyHead_cons, List.mem_cons]
  exact ⟨fun h => h.resolve_left fun h' => (List.cons_ne_nil b p) h'.symm, Or.inr⟩

/-- A text in the language of a mask has at least as many parts, and an empty one where
    the mask has one; by induction on the mask. -/
theorem splitOn_of_inLang (h : InLang m w) : (m.splitOn 46).length ≤ (w.splitOn 46).length ∧
    ([] ∈ (m.splitOn 46).tail → [] ∈ (w.splitOn 46).tail) ∧ ([] ∈ m.splitOn 46 → [] ∈ w.splitOn 46) := by
  induction m generalizing w with
  | nil =>
    obtain rfl : w = [] := h
    exact ⟨le_refl _, id, id⟩
  | cons b m ih =>
    by_cases hdot : b = 46
    · subst hdot
      obtain ⟨u, rfl, hu⟩ := (inLang_plain_append isPlainByte_dot).mp h
      obtain ⟨hlen, -, hmem⟩ := ih hu
      rw [List.singleton_append, splitOn_dot_cons, splitOn_dot_cons, if_pos rfl, if_pos rfl]
      exact ⟨Nat.succ_le_succ hlen, hmem, fun _ => List.mem_cons_self⟩
    · -- the text is what the byte takes, and the rest
      obtain ⟨v, u, rfl, hu⟩ : ∃ v u, w = v ++ u ∧ InLang m u := by
        unfold InLang at h
        rw [List.map_cons] at h
        by_cases hstar : b = star
        · rw [hstar, token_star] at h
          obtain ⟨u, ⟨v, rfl⟩, hu⟩ := h
          exact ⟨v, u, rfl, hu⟩
        · rw [token_of_ne hstar] at h
          obtain ⟨a, u, rfl, -, hu⟩ := h
          exact ⟨[a], u, rfl, hu⟩
      obtain ⟨hlen, htail, -⟩ := ih hu
      obtain ⟨hlen', htail'⟩ := splitOn_dot_append_le v u
      have hmem : [] ∈ (m.splitOn 46).tail → [] ∈ ((v ++ u).splitOn 46).tail := fun h => htail' (htail h)
      refine ⟨?_, ?_, fun h => List.mem_of_mem_tail (hmem ((nil_mem_splitOn_dot_cons hdot).mp h))⟩
      · rw [splitOn_dot_cons, if_neg hdot, List.length_modifyHead]
        exact hlen.trans hlen'
      · rw [splitOn_dot_cons, if_neg hdot, List.tail_modifyHead]
        exact hmem

-- ============================================================================
-- The texts of addresses
-- ============================================================================

theorem dot_notMem_of_digits (h : ∀ b ∈ n, isDigit b = true) : (46 : UInt8) ∉ n := fun hmem => by
  have hdot := h 46 hmem
  cases hdot

theorem Ipv4.splitOn_text (a : Ipv4) : a.text.splitOn 46 = a.octets.map decimal := by
  refine List.splitOn_intercalate 46 (fun l hl => ?_) ?_
  · obtain ⟨o, -, rfl⟩ := List.mem_map.mp hl
    exact dot_notMem_of_digits (decimal_digits o)
  · intro hnil
    have hlen := congrArg List.length hnil
    rw [List.length_map, a.length_octets] at hlen
    cases hlen

/-- A mask that the text of an address is in has at most four parts, and no empty one. -/
theorem parts_of_inLang {a : Ipv4} (h : InLang m a.text) : (m.splitOn 46).length ≤ 4 ∧ [] ∉ m.splitOn 46 := by
  obtain ⟨hlen, -, hmem⟩ := splitOn_of_inLang h
  rw [a.splitOn_text] at hlen hmem
  rw [List.length_map, a.length_octets] at hlen
  refine ⟨hlen, fun hnil => ?_⟩
  obtain ⟨o, -, ho⟩ := List.mem_map.mp (hmem hnil)
  exact decimal_ne_nil o ho

-- ============================================================================
-- Numbers and stars
-- ============================================================================

theorem append_dot_inj {s t : Bytes} (hx : (46 : UInt8) ∉ x) (hy : (46 : UInt8) ∉ y) (h : x ++ 46 :: s = y ++ 46 :: t) :
    x = y ∧ s = t := by
  have htake := congrArg (List.takeWhile (· != 46)) h
  have hall : ∀ {z t : Bytes}, (46 : UInt8) ∉ z → (z ++ 46 :: t).takeWhile (· != 46) = z := by
    intro z t hz
    rw [List.takeWhile_append_of_pos fun b hb => bne_iff_ne.mpr (ne_of_mem_of_not_mem hb hz),
      List.takeWhile_cons_of_neg (by decide), List.append_nil]
  rw [hall hx, hall hy] at htake
  subst htake
  exact ⟨rfl, (List.cons.inj (List.append_cancel_left h)).2⟩

/-- Stars between dots are any text of as many parts or more. -/
theorem inLang_stars (hk : k ≠ 0) (hlen : k ≤ parts.length) :
    InLang ([46].intercalate (List.replicate k splat)) ([46].intercalate parts) := by
  induction k generalizing parts with
  | zero => exact absurd rfl hk
  | succ k ih =>
    obtain ⟨p, ps, rfl⟩ : ∃ p ps, parts = p :: ps := List.exists_cons_of_length_pos (by omega)
    rw [List.length_cons] at hlen
    cases k with
    | zero =>
      rw [List.replicate_one, List.intercalate_singleton]
      exact ⟨[], List.nil_suffix, rfl⟩
    | succ k =>
      have hps : ps ≠ [] := List.length_pos_iff.mp (by omega)
      have hrest : InLang ([46].intercalate (List.replicate (k + 1) splat)) ([46].intercalate ps) :=
        ih (Nat.succ_ne_zero k) (by omega)
      rw [List.replicate_succ, List.intercalate_cons_of_ne_nil (by rw [List.replicate_succ]; exact List.cons_ne_nil _ _),
        List.intercalate_cons_of_ne_nil hps, List.append_assoc, List.append_assoc]
      refine ⟨[46] ++ [46].intercalate ps, List.suffix_append p _, ?_⟩
      exact (inLang_plain_append isPlainByte_dot).mpr ⟨_, rfl, hrest⟩

theorem isPlainByte_of_isNumber (h : n.all isDigit = true) : ∀ b ∈ n ++ [46], isPlainByte b = true := by
  intro b hb
  unfold isPlainByte
  obtain hb | hb := List.mem_append.mp hb
  · rw [List.all_eq_true.mp h b hb, Bool.true_or]
  · rw [List.mem_singleton.mp hb]
    rfl

/-- Numbers in front of stars are the first octets; by induction on the numbers. -/
theorem inLang_numbers {ns : List Bytes} {l : List Nat} (hns : ∀ n ∈ ns, n.all isDigit = true) (hk : k ≠ 0)
    (hlen : ns.length + k ≤ l.length) :
    InLang ([46].intercalate (ns ++ List.replicate k splat)) ([46].intercalate (l.map decimal)) ↔
      (l.take ns.length).map decimal = ns := by
  induction ns generalizing l with
  | nil =>
    rw [List.length_nil, Nat.zero_add] at hlen
    exact iff_of_true (inLang_stars hk (by rwa [List.length_map])) rfl
  | cons n ns ih =>
    rw [List.length_cons] at hlen
    obtain ⟨a, l, rfl⟩ : ∃ a l', l = a :: l' := List.exists_cons_of_length_pos (by omega)
    rw [List.length_cons] at hlen
    have hrest : ns ++ List.replicate k splat ≠ [] := by
      refine List.append_ne_nil_of_right_ne_nil _ fun h => hk ?_
      rw [← List.length_replicate (n := k) (a := splat), h, List.length_nil]
    have hl : l.map decimal ≠ [] := fun h => by
      have hnil := congrArg List.length h
      rw [List.length_map, List.length_nil] at hnil
      omega
    have hn := hns n List.mem_cons_self
    have ih' := ih (l := l) (fun n hn => hns n (List.mem_cons_of_mem _ hn)) (by omega)
    rw [List.cons_append, List.intercalate_cons_of_ne_nil hrest, List.map_cons, List.intercalate_cons_of_ne_nil hl,
      inLang_plain_append (isPlainByte_of_isNumber hn), List.length_cons, List.take_succ_cons, List.map_cons,
      List.cons.injEq, ← ih']
    constructor
    · rintro ⟨u, hu, hlang⟩
      rw [List.append_assoc, List.append_assoc] at hu
      obtain ⟨heq, rfl⟩ := append_dot_inj (dot_notMem_of_digits (decimal_digits a))
        (dot_notMem_of_digits (List.all_eq_true.mp hn)) hu
      exact ⟨heq, hlang⟩
    · rintro ⟨rfl, hlang⟩
      exact ⟨_, rfl, hlang⟩

-- ============================================================================
-- Reading dotted quads
-- ============================================================================

theorem inetPton4Loop_digits {rest : Bytes} {cur octets : Nat} {tmp l : List Nat} (hn : n.all isDigit = true)
    (hcur : cur ≤ 255) (h : inetPton4Loop (n ++ rest) cur tmp true octets = some l) :
    n.foldl (fun n b => 10 * n + (b.toNat - 48)) cur ≤ 255 ∧
      inetPton4Loop rest (n.foldl (fun n b => 10 * n + (b.toNat - 48)) cur) tmp true octets = some l := by
  induction n generalizing cur with
  | nil => exact ⟨hcur, h⟩
  | cons b n ih =>
    rw [List.all_cons, Bool.and_eq_true] at hn
    rw [List.cons_append, inetPton4Loop, if_pos hn.1] at h
    dsimp only at h
    by_cases hbig : cur * 10 + (b.toNat - 48) > 255
    · rw [if_pos hbig] at h
      cases h
    · rw [if_neg hbig, if_pos rfl] at h
      rw [List.foldl_cons, Nat.mul_comm 10 cur]
      exact ih hn.2 (not_lt.mp hbig) h

/-- A number is read with its decimal value. -/
theorem inetPton4Loop_number {rest : Bytes} {octets : Nat} {tmp l : List Nat} (hn : n.all isDigit = true)
    (hne : n ≠ []) (h : inetPton4Loop (n ++ rest) 0 tmp false octets = some l) :
    digitsVal n ≤ 255 ∧ inetPton4Loop rest (digitsVal n) tmp true (octets + 1) = some l := by
  obtain ⟨b, n, rfl⟩ := List.exists_cons_of_ne_nil hne
  rw [digitsVal_of_digits (List.all_eq_true.mp hn), List.foldl_cons]
  rw [List.all_cons, Bool.and_eq_true] at hn
  rw [List.cons_append, inetPton4Loop, if_pos hn.1] at h
  dsimp only at h
  by_cases hbig : 0 * 10 + (b.toNat - 48) > 255
  · rw [if_pos hbig] at h
    cases h
  · rw [if_neg hbig, if_neg Bool.false_ne_true] at h
    by_cases hfour : octets + 1 > 4
    · rw [if_pos hfour] at h
      cases h
    · rw [if_neg hfour, Nat.mul_comm 0 10] at h
      exact inetPton4Loop_digits hn.2 (by omega) h

/-- Numbers between dots are read with their values. -/
theorem inetPton4Loop_parts {octets : Nat} {tmp l : List Nat} (hparts : ∀ p ∈ parts, p.all isDigit = true ∧ p ≠ [])
    (hne : parts ≠ []) (h : inetPton4Loop ([46].intercalate parts) 0 tmp false octets = some l) :
    l = tmp.reverse ++ parts.map digitsVal ∧ ∀ p ∈ parts, digitsVal p ≤ 255 := by
  induction parts generalizing tmp octets with
  | nil => exact absurd rfl hne
  | cons p parts ih =>
    obtain ⟨hp, hpne⟩ := hparts p List.mem_cons_self
    by_cases hlast : parts = []
    · subst hlast
      rw [List.intercalate_singleton, ← List.append_nil p] at h
      obtain ⟨hle, h⟩ := inetPton4Loop_number hp hpne h
      unfold inetPton4Loop at h
      by_cases hfew : octets + 1 < 4
      · rw [if_pos hfew] at h
        cases h
      · rw [if_neg hfew] at h
        obtain rfl := Option.some.inj h
        refine ⟨List.reverse_cons, fun q hq => ?_⟩
        rw [List.mem_singleton.mp hq]
        exact hle
    · rw [List.intercalate_cons_of_ne_nil hlast, List.append_assoc] at h
      obtain ⟨hle, h⟩ := inetPton4Loop_number hp hpne h
      rw [List.singleton_append, inetPton4Loop, if_neg (by decide), if_pos ⟨rfl, rfl⟩] at h
      by_cases hfour : octets + 1 = 4
      · rw [if_pos hfour] at h
        cases h
      · rw [if_neg hfour] at h
        obtain ⟨rfl, hrest⟩ := ih (fun q hq => hparts q (List.mem_cons_of_mem p hq)) hlast h
        refine ⟨?_, fun q hq => ?_⟩
        · rw [List.reverse_cons, List.append_assoc]
          rfl
        · obtain rfl | hq := List.mem_cons.mp hq
          · exact hle
          · exact hrest q hq

theorem inetPton4_parts {l : List Nat} (hparts : ∀ p ∈ parts, p.all isDigit = true ∧ p ≠ []) (hne : parts ≠ [])
    (h : inetPton4 ([46].intercalate parts) = some l) :
    l = parts.map digitsVal ∧ ∀ p ∈ parts, digitsVal p ≤ 255 := inetPton4Loop_parts hparts hne h

-- ============================================================================
-- Blocks
-- ============================================================================

theorem testBit_ipOfBytes {l : List Nat} {i j : Nat} (hj : j < 8) :
    (ipOfBytes false l).bits (8 * i + j) = (l.getD i 0).testBit (7 - j) := by
  show (l.getD ((8 * i + j) / 8) 0).testBit (7 - (8 * i + j) % 8) = _
  rw [show (8 * i + j) / 8 = i by omega, show (8 * i + j) % 8 = j by omega]

/-- Octets are equal where their bits are. -/
theorem octet_eq_iff {o o' : Nat} (ho : o < 256) (ho' : o' < 256) :
    o = o' ↔ ∀ j < 8, o.testBit (7 - j) = o'.testBit (7 - j) := by
  constructor
  · rintro rfl _ _
    rfl
  · intro h
    refine Nat.eq_of_testBit_eq fun j => ?_
    by_cases hj : j < 8
    · have hbit := h (7 - j) (by omega)
      rwa [show 7 - (7 - j) = j by omega] at hbit
    · have hpow : 2 ^ 8 ≤ 2 ^ j := Nat.pow_le_pow_right (by decide) (by omega)
      rw [Nat.testBit_lt_two_pow (by omega), Nat.testBit_lt_two_pow (by omega)]

/-- A block of whole octets is given by its first octets. -/
theorem compWithMask_octets {l l' : List Nat} (hl : ∀ o ∈ l, o < 256) (hl' : ∀ o ∈ l', o < 256) (hlen : k ≤ l.length)
    (hlen' : k ≤ l'.length) :
    (ipOfBytes false l).compWithMask (ipOfBytes false l') ((8 * k : Nat) : Int) = true ↔ l.take k = l'.take k := by
  unfold IpAddr.compWithMask
  rw [decide_eq_true (Int.natCast_nonneg _), Bool.true_and, Int.toNat_natCast, List.all_eq_true]
  have hget : ∀ {l : List Nat}, (∀ o ∈ l, o < 256) → ∀ i, l.getD i 0 < 256 := by
    intro l hl i
    rw [List.getD_eq_getElem?_getD]
    cases hi : l[i]? with
    | none => decide
    | some o => exact hl o (List.mem_of_getElem? hi)
  constructor
  · intro h
    refine List.ext_getElem? fun i => ?_
    rw [List.getElem?_take, List.getElem?_take]
    by_cases hi : i < k
    · rw [if_pos hi, if_pos hi, List.getElem?_eq_getElem (by omega), List.getElem?_eq_getElem (by omega)]
      have hoctet : l.getD i 0 = l'.getD i 0 := by
        rw [octet_eq_iff (hget hl i) (hget hl' i)]
        intro j hj
        have hbit := h (8 * i + j) (List.mem_range.mpr (by omega))
        rw [beq_iff_eq, testBit_ipOfBytes hj, testBit_ipOfBytes hj] at hbit
        exact hbit
      rw [List.getD_eq_getElem?_getD, List.getD_eq_getElem?_getD, List.getElem?_eq_getElem (by omega),
        List.getElem?_eq_getElem (by omega)] at hoctet
      exact congrArg some hoctet
    · rw [if_neg hi, if_neg hi]
  · intro h i hi
    rw [List.mem_range] at hi
    have hoctet : l.getD (i / 8) 0 = l'.getD (i / 8) 0 := by
      have hi' : i / 8 < k := by omega
      have heq := congrArg (fun t : List Nat => t.getD (i / 8) 0) h
      rwa [List.getD_eq_getElem?_getD, List.getD_eq_getElem?_getD, List.getElem?_take, List.getElem?_take, if_pos hi',
        if_pos hi', ← List.getD_eq_getElem?_getD, ← List.getD_eq_getElem?_getD] at heq
    rw [beq_iff_eq]
    show (l.getD (i / 8) 0).testBit _ = (l'.getD (i / 8) 0).testBit _
    rw [hoctet]

-- ============================================================================
-- The conversion
-- ============================================================================

/-- The block of some numbers. -/
def cidrText (ns : List Bytes) : Bytes :=
  [46].intercalate (ns ++ List.replicate (4 - ns.length) [48]) ++ 47 :: decimal (8 * ns.length)

theorem nullOrSplat_iff {rest : List Bytes} {j : Nat} :
    nullOrSplat rest[j]? = true ↔ ∀ p, rest[j]? = some p → p = splat := by
  unfold nullOrSplat
  cases rest[j]? with
  | none => exact iff_of_true rfl fun p h => by cases h
  | some q => exact ⟨fun h p hp => Option.some.inj hp ▸ beq_iff_eq.mp h, fun h => beq_iff_eq.mpr (h q rfl)⟩

/-- The tokens in front are stars where each of them is no token or a star. -/
theorem take_splat {rest : List Bytes} {j : Nat} (h : ∀ i < j, nullOrSplat rest[i]? = true) :
    ∀ p ∈ rest.take j, p = splat := by
  intro p hp
  obtain ⟨i, hi⟩ := List.mem_iff_getElem?.mp hp
  rw [List.getElem?_take] at hi
  split at hi
  · rename_i hlt
    exact nullOrSplat_iff.mp (h i hlt) p hi
  · cases hi

theorem decimal_bits : decimal 8 = [56] ∧ decimal 16 = [49, 54] ∧ decimal 24 = [50, 52] := by decide

theorem cidrText_one (n1 : Bytes) : n1 ++ [46, 48, 46, 48, 46, 48, 47, 56] = cidrText [n1] := by
  show _ = [46].intercalate [n1, [48], [48], [48]] ++ 47 :: decimal 8
  rw [decimal_bits.1]
  simp only [List.intercalate_cons_cons, List.intercalate_singleton, List.append_assoc, List.cons_append,
    List.nil_append]

theorem cidrText_two (n1 n2 : Bytes) : n1 ++ 46 :: n2 ++ [46, 48, 46, 48, 47, 49, 54] = cidrText [n1, n2] := by
  show _ = [46].intercalate [n1, n2, [48], [48]] ++ 47 :: decimal 16
  rw [decimal_bits.2.1]
  simp only [List.intercalate_cons_cons, List.intercalate_singleton, List.append_assoc, List.cons_append,
    List.nil_append]

theorem cidrText_three (n1 n2 n3 : Bytes) :
    n1 ++ 46 :: n2 ++ 46 :: n3 ++ [46, 48, 47, 50, 52] = cidrText [n1, n2, n3] := by
  show _ = [46].intercalate [n1, n2, n3, [48]] ++ 47 :: decimal 24
  rw [decimal_bits.2.2]
  simp only [List.intercalate_cons_cons, List.intercalate_singleton, List.append_assoc, List.cons_append,
    List.nil_append]

theorem nullOrSplat_none {rest : List Bytes} {i j : Nat} (h : rest[i]? = none) (hij : i ≤ j) :
    nullOrSplat rest[j]? = true := by
  rw [List.getElem?_eq_none_iff] at h
  rw [List.getElem?_eq_none (by omega)]
  rfl

/-- A token that is a number. -/
theorem cons_of_isIpNumber {rest : List Bytes} (h : rest[0]?.any isIpNumber = true) :
    ∃ n rest', rest = n :: rest' ∧ isIpNumber n = true := by
  cases rest with
  | nil => cases h
  | cons n rest' => exact ⟨n, rest', rfl, h⟩

/-- The conversion finds one to three numbers, with stars up to the fourth part. -/
theorem mangle_cases {text c : Bytes} (h : mangleWildcardToCidr text = some c) : ∃ ns rest,
    dotTokens text = ns ++ rest ∧ 0 < ns.length ∧ ns.length ≤ 3 ∧ (∀ n ∈ ns, isIpNumber n = true) ∧
      (∀ p ∈ rest.take (4 - ns.length), p = splat) ∧ c = cidrText ns := by
  unfold mangleWildcardToCidr at h
  cases htokens : dotTokens text with
  | nil =>
    rw [htokens] at h
    cases h
  | cons n1 rest =>
    rw [htokens] at h
    dsimp only at h
    by_cases hfirst : n1 = splat ∨ isIpNumber n1 = false
    · rw [if_pos hfirst] at h
      cases h
    rw [if_neg hfirst] at h
    rw [not_or, Bool.not_eq_false] at hfirst
    have hone : ∀ n ∈ [n1], isIpNumber n = true := fun n hn => List.mem_singleton.mp hn ▸ hfirst.2
    by_cases height : nullOrSplat rest[0]? = true ∧
        (rest[1]? = none ∨ rest[1]? = some splat ∧ nullOrSplat rest[2]? = true)
    · rw [if_pos height] at h
      obtain rfl := Option.some.inj h
      obtain ⟨hsecond, hthird⟩ := height
      refine ⟨[n1], rest, rfl, Nat.one_pos, show 1 ≤ 3 by decide, hone, take_splat fun i hi => ?_, cidrText_one n1⟩
      obtain rfl | rfl | rfl : i = 0 ∨ i = 1 ∨ i = 2 := by
        have hi' : i < 3 := hi
        omega
      · exact hsecond
      · obtain hnone | ⟨hsplat, -⟩ := hthird
        · exact nullOrSplat_none hnone (le_refl 1)
        · rw [hsplat]
          rfl
      · obtain hnone | ⟨-, hfourth⟩ := hthird
        · exact nullOrSplat_none hnone (Nat.le_succ 1)
        · exact hfourth
    rw [if_neg height] at h
    by_cases hsecond : rest[0]?.any isIpNumber = true
    · rw [if_neg (not_not.mpr hsecond)] at h
      obtain ⟨n2, rest, rfl, hn2⟩ := cons_of_isIpNumber hsecond
      have htwo : ∀ n ∈ [n1, n2], isIpNumber n = true := fun n hn => by
        obtain rfl | hn := List.mem_cons.mp hn
        · exact hfirst.2
        · exact List.mem_singleton.mp hn ▸ hn2
      by_cases hsixteen : nullOrSplat rest[0]? = true ∧ nullOrSplat rest[1]? = true
      · rw [if_pos (show nullOrSplat (n2 :: rest)[1]? = true ∧ nullOrSplat (n2 :: rest)[2]? = true from hsixteen)] at h
        obtain rfl := Option.some.inj h
        refine ⟨[n1, n2], rest, rfl, Nat.two_pos, show 2 ≤ 3 by decide, htwo, take_splat fun i hi => ?_,
          cidrText_two n1 n2⟩
        obtain rfl | rfl : i = 0 ∨ i = 1 := by
          have hi' : i < 2 := hi
          omega
        · exact hsixteen.1
        · exact hsixteen.2
      rw [if_neg (show ¬ (nullOrSplat (n2 :: rest)[1]? = true ∧ nullOrSplat (n2 :: rest)[2]? = true) from hsixteen)] at h
      by_cases hthird : rest[0]?.any isIpNumber = true
      · rw [if_neg (not_not.mpr (show (n2 :: rest)[1]?.any isIpNumber = true from hthird))] at h
        obtain ⟨n3, rest, rfl, hn3⟩ := cons_of_isIpNumber hthird
        by_cases hfour : nullOrSplat rest[0]? = true
        · rw [if_pos (show nullOrSplat (n2 :: n3 :: rest)[2]? = true from hfour)] at h
          obtain rfl := Option.some.inj h
          refine ⟨[n1, n2, n3], rest, rfl, Nat.succ_pos 2, le_refl 3, fun n hn => ?_, take_splat fun i hi => ?_,
            cidrText_three n1 n2 n3⟩
          · obtain hn | hn := List.mem_append.mp (show n ∈ [n1, n2] ++ [n3] from hn)
            · exact htwo n hn
            · exact List.mem_singleton.mp hn ▸ hn3
          · obtain rfl : i = 0 := by
              have hi' : i < 1 := hi
              omega
            exact hfour
        · rw [if_neg (show ¬ nullOrSplat (n2 :: n3 :: rest)[2]? = true from hfour)] at h
          cases h
      · rw [if_pos (show ¬ (n2 :: rest)[1]?.any isIpNumber = true from hthird)] at h
        cases h
    · rw [if_pos hsecond] at h
      cases h

-- ============================================================================
-- The block
-- ============================================================================

/-- What there is between dots is in the parts. -/
theorem mem_intercalate (h : b ∈ [46].intercalate parts) : b = 46 ∨ ∃ p ∈ parts, b ∈ p := by
  induction parts with
  | nil => cases h
  | cons p parts ih =>
    by_cases hlast : parts = []
    · subst hlast
      rw [List.intercalate_singleton] at h
      exact Or.inr ⟨p, List.mem_cons_self, h⟩
    · rw [List.intercalate_cons_of_ne_nil hlast, List.append_assoc, List.mem_append, List.mem_append,
        List.mem_singleton] at h
      obtain h | h | h := h
      · exact Or.inr ⟨p, List.mem_cons_self, h⟩
      · exact Or.inl h
      · obtain hdot | ⟨q, hq, hb⟩ := ih h
        · exact Or.inl hdot
        · exact Or.inr ⟨q, List.mem_cons_of_mem p hq, hb⟩

variable {ns : List Bytes} {mask : Netmask}

/-- The four parts of a block. -/
def cidrParts (ns : List Bytes) : List Bytes := ns ++ List.replicate (4 - ns.length) [48]

theorem cidrParts_numbers (hns : ∀ n ∈ ns, n.all isDigit = true ∧ n ≠ []) :
    ∀ p ∈ cidrParts ns, p.all isDigit = true ∧ p ≠ [] := by
  intro p hp
  obtain hp | hp := List.mem_append.mp hp
  · exact hns p hp
  · rw [List.eq_of_mem_replicate hp]
    exact ⟨rfl, List.cons_ne_nil _ _⟩

theorem length_cidrParts (hlen : ns.length ≤ 3) : (cidrParts ns).length = 4 := by
  unfold cidrParts
  rw [List.length_append, List.length_replicate]
  omega

/-- The block of some numbers has their values for its first octets. -/
theorem parseNetmask_cidrText (hns : ∀ n ∈ ns, n.all isDigit = true ∧ n ≠ []) (hpos : 0 < ns.length)
    (hlen : ns.length ≤ 3) (h : parseNetmask rbInetPtonSock (cidrText ns) = some mask) :
    mask.addr = ipOfBytes false ((cidrParts ns).map digitsVal) ∧ mask.bits = ((8 * ns.length : Nat) : Int) ∧
      ∀ p ∈ cidrParts ns, digitsVal p ≤ 255 := by
  have hparts := cidrParts_numbers hns
  have hip : ∀ b ∈ [46].intercalate (cidrParts ns), isPlainByte b = true := by
    intro b hb
    unfold isPlainByte
    obtain rfl | ⟨p, hp, hb⟩ := mem_intercalate hb
    · rfl
    · rw [List.all_eq_true.mp (hparts p hp).1 b hb, Bool.true_or]
  have hslash : (47 : UInt8) ∉ [46].intercalate (cidrParts ns) := fun hmem => by
    have hplain := hip 47 hmem
    cases hplain
  have hcolon : (58 : UInt8) ∉ [46].intercalate (cidrParts ns) := fun hmem => by
    have hplain := hip 58 hmem
    cases hplain
  have hbits : atoi (decimal (8 * ns.length)) = ((8 * ns.length : Nat) : Int) ∧
      (58 : UInt8) ∉ decimal (8 * ns.length) := by
    obtain hk | hk | hk : ns.length = 1 ∨ ns.length = 2 ∨ ns.length = 3 := by omega
    · rw [hk]
      decide
    · rw [hk]
      decide
    · rw [hk]
      decide
  have hsplit : splitBits 32 (cidrText ns) = ([46].intercalate (cidrParts ns), ((8 * ns.length : Nat) : Int)) := by
    unfold splitBits
    rw [show strchr 47 (cidrText ns) = some ([46].intercalate (cidrParts ns), decimal (8 * ns.length)) from
      strchr_append hslash _]
    dsimp only
    rw [hbits.1, Int.min_eq_left (by omega)]
  have hcolon' : (cidrText ns).contains 58 = false := by
    rw [← Bool.not_eq_true, List.contains_iff_mem]
    intro hmem
    obtain hmem | hmem := List.mem_append.mp hmem
    · exact hcolon hmem
    · obtain hmem | hmem := List.mem_cons.mp hmem
      · cases hmem
      · exact hbits.2 hmem
  unfold parseNetmask at h
  split at h
  · cases h
  rw [hcolon', if_neg Bool.false_ne_true] at h
  split at h
  · obtain ⟨addr, haddr, rfl⟩ := Option.map_eq_some_iff.mp h
    rw [hsplit] at haddr
    dsimp only at haddr ⊢
    rw [rbInetPtonSock_no_colon hcolon] at haddr
    obtain ⟨octets, hoctets, rfl⟩ := Option.map_eq_some_iff.mp haddr
    have hne : cidrParts ns ≠ [] := by
      intro hnil
      have hfour := length_cidrParts hlen
      rw [hnil] at hfour
      cases hfour
    obtain ⟨rfl, hle⟩ := inetPton4_parts hparts hne hoctets
    refine ⟨rfl, ?_, hle⟩
    rw [hsplit]
  · cases h

-- ============================================================================
-- The mask and its block
-- ============================================================================

theorem isIpNumber_all (h : isIpNumber n = true) : n.all isDigit = true := by
  unfold isIpNumber at h
  split at h
  · cases h
  · exact h

/-- Octets are written as some numbers where they are their values, and no number has a
    zero in front. -/
theorem map_decimal_eq_iff {l : List Nat} (hns : ∀ n ∈ ns, n.all isDigit = true ∧ n ≠ []) :
    l.map decimal = ns ↔ l = ns.map digitsVal ∧ ∀ n ∈ ns, ¬ ZeroLed n := by
  induction ns generalizing l with
  | nil => exact ⟨fun h => ⟨List.map_eq_nil_iff.mp h, fun n hn => (by cases hn)⟩, fun h => (by rw [h.1]; rfl)⟩
  | cons n ns ih =>
    have hn := hns n List.mem_cons_self
    have ih' : ∀ {l : List Nat}, l.map decimal = ns ↔ l = ns.map digitsVal ∧ ∀ n ∈ ns, ¬ ZeroLed n :=
      ih fun n hn => hns n (List.mem_cons_of_mem _ hn)
    cases l with
    | nil => exact ⟨fun h => (by cases h), fun h => (by cases h.1)⟩
    | cons a l =>
      rw [List.map_cons, List.cons.injEq, decimal_eq_iff hn.1 hn.2, ih', List.map_cons, List.cons.injEq,
        List.forall_mem_cons]
      constructor
      · rintro ⟨⟨rfl, hzero⟩, rfl, hrest⟩
        exact ⟨⟨rfl, rfl⟩, hzero, hrest⟩
      · rintro ⟨⟨rfl, rfl⟩, hzero, hrest⟩
        exact ⟨⟨rfl, hzero⟩, rfl, hrest⟩

/-- Without empty parts and with at most four of them, a mask of numbers and stars is in
    the language of the addresses that begin with the numbers. -/
theorem inLang_of_parts {rest : List Bytes} (hstar : (42 : UInt8) ∈ m) (hlen : (m.splitOn 46).length ≤ 4)
    (hempty : [] ∉ m.splitOn 46) (htokens : dotTokens m = ns ++ rest) (hns : ∀ n ∈ ns, n.all isDigit = true)
    (hrest : ∀ p ∈ rest.take (4 - ns.length), p = splat) :
    (∀ a : Ipv4, InLang m a.text ↔ (a.octets.take ns.length).map decimal = ns) ∧
      ∀ p ∈ m.splitOn 46, p ∈ ns ∨ p = splat := by
  have hsplit : m.splitOn 46 = ns ++ rest := by
    rw [← htokens]
    refine (List.filter_eq_self.mpr fun p hp => decide_eq_true ?_).symm
    rintro rfl
    exact hempty hp
  rw [hsplit, List.length_append] at hlen
  have hall : ∀ p ∈ rest, p = splat := by
    rwa [List.take_of_length_le (by omega)] at hrest
  have hstars : rest = List.replicate rest.length splat := List.eq_replicate_of_mem hall
  have hjoin : m = [46].intercalate (ns ++ List.replicate rest.length splat) := by
    rw [← hstars, ← hsplit, List.intercalate_splitOn]
  have hsome : rest.length ≠ 0 := by
    intro hzero
    rw [hzero, List.replicate_zero, List.append_nil] at hjoin
    rw [hjoin] at hstar
    obtain hdot | ⟨n, hn, hb⟩ := mem_intercalate hstar
    · cases hdot
    · have hdigit := List.all_eq_true.mp (hns n hn) 42 hb
      cases hdigit
  refine ⟨fun a => ?_, fun p hp => ?_⟩
  · have hfour := a.length_octets
    rw [hjoin]
    exact inLang_numbers hns hsome (by omega)
  · rw [hsplit] at hp
    exact (List.mem_append.mp hp).imp_right (hall p)

theorem splat_not_zeroLed : ¬ ZeroLed splat := fun h => Bool.false_ne_true h.1

/-- A mask that becomes a block has its addresses exactly where it is plain. -/
theorem sameAddresses_iff_plain (m c : Bytes) (mask : Netmask) (hstar : (42 : UInt8) ∈ m)
    (hmangle : mangleWildcardToCidr m = some c) (hparse : parseNetmask rbInetPtonSock c = some mask) :
    SameAddresses m mask ↔ Plain m := by
  obtain ⟨ns, rest, htokens, hpos, hlen, hnumbers, hrest, rfl⟩ := mangle_cases hmangle
  have hdigits : ∀ n ∈ ns, n.all isDigit = true := fun n hn => isIpNumber_all (hnumbers n hn)
  have hns : ∀ n ∈ ns, n.all isDigit = true ∧ n ≠ [] := by
    refine fun n hn => ⟨hdigits n hn, ?_⟩
    have hmem : n ∈ dotTokens m := htokens ▸ List.mem_append_left rest hn
    exact of_decide_eq_true (List.mem_filter.mp hmem).2
  obtain ⟨haddr, hbits, hle⟩ := parseNetmask_cidrText hns hpos hlen hparse
  -- the block has the addresses that begin with the values of the numbers
  have hfour : ((cidrParts ns).map digitsVal).length = 4 := by
    rw [List.length_map, length_cidrParts hlen]
  have hlt : ∀ o ∈ (cidrParts ns).map digitsVal, o < 256 := by
    intro o ho
    obtain ⟨p, hp, rfl⟩ := List.mem_map.mp ho
    exact Nat.lt_succ_of_le (hle p hp)
  have htake : ((cidrParts ns).map digitsVal).take ns.length = ns.map digitsVal := by
    unfold cidrParts
    rw [List.map_append, List.take_left' (by rw [List.length_map])]
  have hblock : ∀ a : Ipv4, a.addr.compWithMask mask.addr mask.bits = true ↔
      a.octets.take ns.length = ns.map digitsVal := by
    intro a
    have hlen' := a.length_octets
    rw [haddr, hbits, ← htake]
    exact compWithMask_octets a.octet_lt hlt (by omega) (by omega)
  constructor
  · intro hsame
    -- the first address of the block
    have hfirst : InLang m (⟨(cidrParts ns).map digitsVal, hfour, hlt⟩ : Ipv4).text :=
      (hsame _).mp ((hblock _).mpr htake)
    obtain ⟨hparts, hempty⟩ := parts_of_inLang hfirst
    obtain ⟨hlang, hmem⟩ := inLang_of_parts hstar hparts hempty htokens hdigits hrest
    have hzero := ((map_decimal_eq_iff hns).mp ((hlang _).mp hfirst)).2
    refine ⟨hparts, hempty, fun p hp => ?_⟩
    obtain hp | rfl := hmem p hp
    · exact hzero p hp
    · exact splat_not_zeroLed
  · rintro ⟨hparts, hempty, hzero⟩ a
    obtain ⟨hlang, -⟩ := inLang_of_parts hstar hparts hempty htokens hdigits hrest
    have hzero' : ∀ n ∈ ns, ¬ ZeroLed n := by
      refine fun n hn => hzero n ?_
      have hmem : n ∈ dotTokens m := htokens ▸ List.mem_append_left rest hn
      exact (List.mem_filter.mp hmem).1
    rw [hblock, hlang, map_decimal_eq_iff hns]
    exact ⟨fun h => ⟨h, hzero'⟩, fun h => h.1⟩

/-- `1.2.*`, which becomes `1.2.0.0/16`. -/
theorem sameAddresses_iff_plain_sixteen : (42 : UInt8) ∈ ([49, 46, 50, 46, 42] : Bytes) ∧
    mangleWildcardToCidr [49, 46, 50, 46, 42] = some [49, 46, 50, 46, 48, 46, 48, 47, 49, 54] ∧
    parseNetmask rbInetPtonSock [49, 46, 50, 46, 48, 46, 48, 47, 49, 54] =
      some ⟨false, ipOfBytes false [1, 2, 0, 0], 16, by decide⟩ ∧
    (SameAddresses [49, 46, 50, 46, 42] ⟨false, ipOfBytes false [1, 2, 0, 0], 16, by decide⟩ ↔
      Plain [49, 46, 50, 46, 42]) :=
  ⟨by decide, by decide, by rfl,
    sameAddresses_iff_plain _ [49, 46, 50, 46, 48, 46, 48, 47, 49, 54] _ (by decide) (by decide) (by rfl)⟩

/-- `1.2.3.*.a`, which becomes `1.2.3.0/24`. -/
theorem not_sameAddresses : ¬ ∀ (m c : Bytes) (mask : Netmask), (42 : UInt8) ∈ m →
    mangleWildcardToCidr m = some c → parseNetmask rbInetPtonSock c = some mask → SameAddresses m mask := by
  intro h
  have hsame := h [49, 46, 50, 46, 51, 46, 42, 46, 97] [49, 46, 50, 46, 51, 46, 48, 47, 50, 52]
    ⟨false, ipOfBytes false [1, 2, 3, 0], 24, by decide⟩ (by decide) (by decide) (by rfl)
    ⟨[1, 2, 3, 0], rfl, by decide⟩
  have hlang := hsame.mp (by decide)
  exact absurd (parts_of_inLang hlang).1 (by decide)

end Bluebox.Kline
